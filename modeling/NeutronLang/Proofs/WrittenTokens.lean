import NeutronLang.Proofs.Words

/-!
# Tokens written back

The tokens of a text can be written down again, each with its own text and the two operators that
are also words in signs, and are read again as the same, whatever blank characters stand between
them. For that each token has to be cut off by itself before a blank character, wherever in a text
it was found (`isToken_of_tokenize`): the stretch that it was read from is how it is spelled, and a
blank character ends it as well as what followed it there.
-/

namespace NeutronLang.Rendering

open Grammar Lexicon

/-- `spelling` of a word other than an operator is the text that it carries. -/
theorem spelling_of_ne {kind : TokenKind} (lexeme : String) (h : kind ≠ .operator) :
    (Word.mk kind lexeme).spelling = lexeme.toList := by
  cases kind
  case operator => exact absurd rfl h
  all_goals rfl

/-- `spelling` of a token is the stretch that it was read from. -/
theorem spelling_of_scans {kind : TokenKind} {body rest : List Char}
    (h : Scans (some kind) body rest) : (Word.mk kind (carriedText body)).spelling = body := by
  by_cases hkind : kind = .operator
  · subst hkind
    -- the two operators that are also words are among the six
    have hall : ∀ entry ∈ operators,
        (Word.mk .operator (carriedText entry.1)).spelling = entry.1 := by decide
    cases h with
    | operator hmem => exact hall _ hmem
  · have hlexeme : Lexer.lexeme kind body = String.ofList body := by
      cases kind
      case operator => exact absurd rfl hkind
      all_goals rfl
    rw [spelling_of_ne _ hkind, ← lexeme_eq_carriedText h, hlexeme, String.toList_ofList]

/-- What `Scans` before some text does so before a blank character or the end. -/
theorem scans_before_blank {kind : TokenKind} {body rest more : List Char}
    (h : Scans (some kind) body rest) (hmore : ∀ c ∈ more.head?, Text.isBlank c = true) :
    Scans (some kind) body more := by
  cases h with
  | string hquote hbody => exact .string hquote hbody
  | number hdigit htail _ =>
    exact .number hdigit htail fun d hd => not_isNumberChar_of_isBlank (hmore d hd)
  | keyword hstart htail _ hword =>
    exact .keyword hstart htail (fun d hd => not_isWordChar_of_isBlank (hmore d hd)) hword
  | identifier hstart htail _ hword =>
    exact .identifier hstart htail (fun d hd => not_isWordChar_of_isBlank (hmore d hd)) hword
  | operator hmem => exact .operator hmem
  | symbol hblank hquote hdigit hstart _ _ =>
    exact scans_symbol_before_blank hblank hquote hdigit hstart hmore

/-- `IsToken` holds of each token of a text: it is cut off by itself before a blank character. -/
theorem isToken_of_tokenize {text : List Char} {tokens : List Token}
    (h : tokenize text = .ok tokens) : ∀ token ∈ tokens, (Word.ofToken token).IsToken := by
  refine forall_of_tokenize h fun token body after hscans hlexeme => ?_
  have hspelling : (Word.ofToken token).spelling = body := by
    unfold Word.ofToken
    rw [hlexeme]
    exact spelling_of_scans hscans
  constructor
  · intro rest hrest
    rw [hspelling]
    exact scans_before_blank hscans hrest
  · rw [hspelling]
    exact (lexeme_eq_carriedText hscans).trans hlexeme.symm

/-- Tokens can be written back and read again: the tokens of a text, written one after the other
with blank characters between them, are read as tokens of the same kinds with the same texts. -/
theorem tokenize_spaced {text spaced : List Char} {tokens : List Token}
    (h : tokenize text = .ok tokens) (hspaced : Spaced (tokens.map Word.ofToken) spaced) :
    ∃ again, tokenize spaced = .ok again ∧
      again.map Word.ofToken = tokens.map Word.ofToken := by
  refine exists_tokens_of_spaced hspaced fun word hword => ?_
  obtain ⟨token, htoken, rfl⟩ := List.mem_map.mp hword
  exact isToken_of_tokenize h token htoken

/-- A number with two points and a string with a line break are read again as they were, a slash and
a star behind it are no comment, and what had no blank character between is kept apart by one. -/
theorem tokenize_spaced_adjacent :
    let text := "1.2.3and'\\'\n'&&/ *é".toList
    let tokens : List Token := [⟨.number, "1.2.3", 0, 5⟩, ⟨.keyword, "and", 5, 8⟩,
      ⟨.string, "'\\'\n'", 8, 13⟩, ⟨.operator, "and", 13, 15⟩, ⟨.symbol, "/", 15, 16⟩,
      ⟨.symbol, "*", 17, 18⟩, ⟨.symbol, "é", 18, 19⟩]
    let spaced := "1.2.3\u2003and\n'\\'\n' && /\t * é".toList
    tokenize text = .ok tokens ∧ Spaced (tokens.map Word.ofToken) spaced ∧
      ∃ again, tokenize spaced = .ok again ∧
        again.map Word.ofToken = tokens.map Word.ofToken := by
  intro text tokens spaced
  have htokens : tokenize text = .ok tokens := by decide +kernel
  have hspaced : Spaced (tokens.map Word.ofToken) spaced :=
    .word rfl (.word rfl (.word rfl (.word rfl (.word rfl (.blank rfl (.word rfl .last))))))
  exact ⟨htokens, hspaced, tokenize_spaced htokens hspaced⟩

end NeutronLang.Rendering
