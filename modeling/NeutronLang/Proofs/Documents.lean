import NeutronLang.Document
import NeutronLang.Proofs.Tokenization

/-!
# Documents and their tokens

A blank document is read without looking for tokens, and every other one from its tokens. The two
give the same tree and the same events, so that what is proved about the tokens of a document holds
of every document.
-/

namespace NeutronLang

open Lexicon

/-- `tokenize` cuts a blank text into blank characters, which leave no tokens. -/
theorem tokenize_of_isBlankText {text : List Char} (h : Text.isBlankText text = true) :
    tokenize text = .ok [] := by
  suffices hcut : ∃ pieces, Cut text pieces [] ∧ ∀ offset, Lexer.tokensFrom offset pieces = [] by
    obtain ⟨pieces, hcut, htokens⟩ := hcut
    unfold tokenize
    rw [pieces_eq_iff.mpr ⟨hcut, .inl rfl⟩]
    exact congrArg _ (htokens 0)
  induction text with
  | nil => exact ⟨[], .nil, fun _ => rfl⟩
  | cons c text ih =>
    obtain ⟨hblank, hrest⟩ := Bool.and_eq_true_iff.mp h
    obtain ⟨pieces, hcut, htokens⟩ := ih hrest
    exact ⟨⟨none, [c]⟩ :: pieces, .cons (.blank hblank) hcut, fun offset => htokens _⟩

/-- `readDocument` reads a document with tokens by `ofTokens`, blank or not. -/
theorem exists_reading {text : List Char} {tokens : List Token}
    (h : tokenize text = .ok tokens) :
    ∃ reading, readDocument text = .ok reading ∧
      reading.program = (Grammar.program text tokens).value ∧
      reading.events = (Grammar.program text tokens).events := by
  unfold readDocument
  split
  · next hblank =>
    rw [tokenize_of_isBlankText hblank] at h
    obtain rfl := Except.ok.inj h
    exact ⟨_, rfl, rfl, rfl⟩
  · rw [h]
    exact ⟨_, rfl, rfl, rfl⟩

end NeutronLang
