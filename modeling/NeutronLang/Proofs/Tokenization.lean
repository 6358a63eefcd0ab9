import Mathlib.Logic.Basic
import NeutronLang.Proofs.Cut

/-!
# What the tokens of a text are

A `Tokenization` says of tokens where they lie in a text, that each of them is what the lexical
rules allow there, and that only gaps lie between them. It does not mention the lexer.
`tokenize_exact` shows that a text has one tokenization, which the lexer finds, or one string that
is never closed, which it reports.

A tokenization and a cut carry the same information: the pieces of a cut without a kind join to
gaps, and gaps fall into such pieces.
-/

namespace NeutronLang.Lexicon

/-- A gap before the given text: pieces without a kind (`Scans none`), one after the other. -/
inductive Gap : List Char → List Char → Prop where
  | nil {rest : List Char} : Gap [] rest
  | cons {body more rest : List Char} : Scans none body (more ++ rest) → Gap more rest →
      Gap (body ++ more) rest

/-- The text that a token carries: the stretch `body` that it was read from, but for the two
operators that are also words. -/
def carriedText (body : List Char) : String :=
  if body = ['&', '&'] then "and" else if body = ['|', '|'] then "or" else String.ofList body

/-- A token is what a rule (`Scans`) allows where it lies in a text. -/
def ReadFrom (text : List Char) (token : Token) : Prop :=
  ∃ before body after, text = before ++ body ++ after ∧ token.start = before.length ∧
    token.stop = (before ++ body).length ∧ Scans (some token.kind) body after ∧
    token.lexeme = carriedText body

/-- Nothing but a `Gap` lies between two offsets of a text. -/
def GapBetween (text : List Char) (start stop : Int) : Prop :=
  ∃ before body after, text = before ++ body ++ after ∧ start = before.length ∧
    stop = (before ++ body).length ∧ Gap body after

/-- The tokens of a text up to the offset `stop`, each as the lexicon reads it (`ReadFrom`). -/
structure Tokenization (text : List Char) (tokens : List Token) (stop : Int) : Prop where
  /-- No token is empty, and all lie within the text. -/
  within : ∀ token ∈ tokens, 0 ≤ token.start ∧ token.start < token.stop ∧ token.stop ≤ stop
  /-- Each token ends before the later ones start. -/
  ordered : tokens.Pairwise fun token later => token.stop ≤ later.start
  /-- Each token is what a rule allows at its place. -/
  read : ∀ token ∈ tokens, ReadFrom text token
  /-- Gaps lie before the first token, between any two, and after the last. -/
  gaps : List.Forall₂ (GapBetween text) (0 :: tokens.map (·.stop)) (tokens.map (·.start) ++ [stop])

/-- A string that is never closed (`Unclosed`), after the tokens before it. -/
structure EndsOpen (text : List Char) (fault : OpenString) : Prop where
  /-- The text before the string has its tokens. -/
  before : ∃ tokens, Tokenization text tokens fault.start
  /-- A quote stands where the string starts, and what follows never closes it. -/
  opened : ∃ before rest, text = before ++ fault.quote :: rest ∧ fault.start = before.length ∧
    isQuote fault.quote = true ∧ Unclosed fault.quote rest
  /-- The string takes all that remains. -/
  stop_eq : fault.stop = text.length

/-! ## From cuts to tokenizations -/

/-- `lexeme` gives a token the `carriedText` of its stretch. -/
theorem lexeme_eq_carriedText {kind : TokenKind} {body rest : List Char}
    (h : Scans (some kind) body rest) : Lexer.lexeme kind body = carriedText body := by
  have hother {c : Char} (tail : List Char) (hand : c ≠ '&') (hor : c ≠ '|') :
      carriedText (c :: tail) = String.ofList (c :: tail) := by
    simp [carriedText, hand, hor]
  cases h with
  -- The four rules below start with a sign that is neither of `&` and `|`.
  | string hquote _ =>
    refine (hother _ ?_ ?_).symm <;> (rintro rfl; revert hquote; decide)
  | number hdigit _ _ =>
    refine (hother _ ?_ ?_).symm <;> (rintro rfl; revert hdigit; decide)
  | keyword hstart _ _ _ =>
    refine (hother _ ?_ ?_).symm <;> (rintro rfl; revert hstart; decide)
  | identifier hstart _ _ _ =>
    refine (hother _ ?_ ?_).symm <;> (rintro rfl; revert hstart; decide)
  | operator hmem =>
    rename_i c d carried
    have htext := operatorText?_eq_some_iff.mpr hmem
    rw [Lexer.lexeme, htext, Option.getD_some]
    simp only [operators, List.mem_cons, Prod.mk.injEq, List.cons.injEq, List.not_mem_nil,
      or_false, and_true] at hmem
    rcases hmem with ⟨⟨rfl, rfl⟩, rfl⟩ | ⟨⟨rfl, rfl⟩, rfl⟩ | ⟨⟨rfl, rfl⟩, rfl⟩ |
      ⟨⟨rfl, rfl⟩, rfl⟩ | ⟨⟨rfl, rfl⟩, rfl⟩ | ⟨⟨rfl, rfl⟩, rfl⟩ <;> decide
  | symbol => simp [Lexer.lexeme, carriedText]

/-- A gap can be continued by a gap. -/
theorem Gap.append {gap more rest : List Char} (h : Gap gap (more ++ rest))
    (hmore : Gap more rest) : Gap (gap ++ more) rest := by
  generalize htail : more ++ rest = tail at h
  induction h with
  | nil => exact hmore
  | cons hscans _ ih =>
    subst htail
    rw [List.append_assoc]
    refine .cons ?_ (ih rfl)
    rw [List.append_assoc]
    exact hscans

/-- `Gap` holds of a stretch that one of the rules for gaps allows. -/
theorem Gap.of_scans {body rest : List Char} (h : Scans none body rest) : Gap body rest := by
  have hcons : Gap (body ++ []) rest := .cons (by simpa using h) .nil
  simpa using hcons

/-- The tokens of a cut are read from where they lie, with gaps between them. Before the cut stand a
part of the text and a gap that the cut continues. -/
theorem gaps_of_cut {text rest left : List Char} {pieces : List Piece} (before gap : List Char)
    (hcut : Cut rest pieces left) (htext : text = before ++ gap ++ rest) (hgap : Gap gap rest) :
    let tokens := Lexer.tokensFrom (before ++ gap).length pieces
    (∀ token ∈ tokens, ReadFrom text token) ∧
      List.Forall₂ (GapBetween text) (before.length :: tokens.map (·.stop))
        (tokens.map (·.start) ++ [(text.length - left.length : Int)]) := by
  -- The gap grows with each piece that has no kind and starts anew behind each token.
  induction hcut generalizing before gap with
  | nil =>
    rename_i left
    refine ⟨by simp [Lexer.tokensFrom], ?_⟩
    have hstop : (text.length - left.length : Int) = (before ++ gap).length := by
      rw [htext]
      simp only [List.length_append]
      omega
    rw [hstop]
    exact .cons ⟨before, gap, left, htext, rfl, rfl, hgap⟩ .nil
  | cons hscans hcut ih =>
    rename_i kind body after left pieces
    cases kind with
    | none =>
      -- The piece belongs to the gap before it.
      have h := ih before (gap ++ body) (by rw [htext]; simp)
        (hgap.append (.of_scans hscans))
      have hlength : ((before ++ (gap ++ body)).length : Int) =
          (before ++ gap).length + body.length := by
        simp only [List.length_append]
        omega
      rw [hlength] at h
      exact h
    | some kind =>
      -- The piece is a token. The gap ends before it, and the next one is still empty.
      have h := ih (before ++ gap ++ body) [] (by rw [htext]; simp) .nil
      have hlength : ((before ++ gap ++ body ++ []).length : Int) =
          (before ++ gap).length + body.length := by
        simp only [List.length_append, List.length_nil]
        omega
      have hlength' : ((before ++ gap ++ body).length : Int) =
          (before ++ gap).length + body.length := by
        simp only [List.length_append]
        omega
      rw [hlength, hlength'] at h
      obtain ⟨hread, hgaps⟩ := h
      refine ⟨?_, ?_⟩
      · intro token htoken
        rcases List.mem_cons.mp htoken with rfl | hmem
        · exact ⟨before ++ gap, body, after, by rw [htext]; simp, rfl, hlength'.symm, hscans,
            lexeme_eq_carriedText hscans⟩
        · exact hread token hmem
      · exact .cons ⟨before, gap, body ++ after, htext, rfl, rfl, hgap⟩ hgaps

/-- Tokens that are read from a text, with gaps between them, are in order. -/
theorem ordered_of_gaps {text : List Char} {tokens : List Token} {start stop : Int}
    (hread : ∀ token ∈ tokens, ReadFrom text token)
    (hgaps : List.Forall₂ (GapBetween text) (start :: tokens.map (·.stop))
      (tokens.map (·.start) ++ [stop])) :
    start ≤ stop ∧
      (∀ token ∈ tokens, start ≤ token.start ∧ token.start < token.stop ∧ token.stop ≤ stop) ∧
      tokens.Pairwise fun token later => token.stop ≤ later.start := by
  have hle {start stop : Int} (h : GapBetween text start stop) : start ≤ stop := by
    obtain ⟨before, body, after, -, rfl, rfl, -⟩ := h
    rw [List.length_append]
    omega
  induction tokens generalizing start with
  | nil =>
    obtain ⟨hgap, -⟩ := List.forall₂_cons.mp hgaps
    exact ⟨hle hgap, by simp, .nil⟩
  | cons token tokens ih =>
    obtain ⟨hgap, hgaps⟩ := List.forall₂_cons.mp hgaps
    obtain ⟨hstop, hwithin, hordered⟩ := ih (fun t ht => hread t (List.mem_cons_of_mem _ ht)) hgaps
    replace hstop : token.stop ≤ stop := hstop
    have hstart : start ≤ token.start := hle hgap
    -- A rule takes at least one character, so the token is not empty.
    have hlt : token.start < token.stop := by
      obtain ⟨before, body, after, -, hs, ht, hscans, -⟩ := hread token List.mem_cons_self
      obtain ⟨c, tail, rfl⟩ := hscans.exists_cons
      rw [hs, ht, List.length_append, List.length_cons]
      omega
    refine ⟨by omega, ?_, .cons (fun later hlater => (hwithin later hlater).1) hordered⟩
    intro other hother
    rcases List.mem_cons.mp hother with rfl | hmem
    · exact ⟨hstart, hlt, hstop⟩
    · obtain ⟨hs, ht, hle⟩ := hwithin other hmem
      replace hs : token.stop ≤ other.start := hs
      exact ⟨by omega, ht, hle⟩

/-- `Cut` gives the tokens of a text up to what is left. -/
theorem tokenization_of_cut {text left : List Char} {pieces : List Piece}
    (h : Cut text pieces left) :
    Tokenization text (Lexer.tokensFrom 0 pieces) (text.length - left.length) := by
  obtain ⟨hread, hgaps⟩ := gaps_of_cut [] [] h rfl .nil
  obtain ⟨-, hwithin, hordered⟩ := ordered_of_gaps hread hgaps
  exact ⟨hwithin, hordered, hread, hgaps⟩

/-! ## From tokenizations to cuts -/

/-- `Gap` falls into pieces without a kind, which add no tokens to a cut. -/
theorem exists_cut_of_gap {gap rest left : List Char} {pieces : List Piece} (hgap : Gap gap rest)
    (hcut : Cut rest pieces left) :
    ∃ more, Cut (gap ++ rest) more left ∧ ∀ offset : Int,
      Lexer.tokensFrom offset more = Lexer.tokensFrom (offset + gap.length) pieces := by
  induction hgap with
  | nil => exact ⟨pieces, hcut, by simp⟩
  | cons hscans _ ih =>
    rename_i body gap rest _
    obtain ⟨more, hmore, htokens⟩ := ih hcut
    refine ⟨⟨none, body⟩ :: more, ?_, fun offset => ?_⟩
    · rw [List.append_assoc]
      exact .cons hscans hmore
    · rw [Lexer.tokensFrom, htokens, List.length_append]
      congr 1
      omega

/-- Two ways to divide a text after equally long parts are the same. -/
theorem append_inj_of_length {before before' rest rest' : List Char}
    (h : before ++ rest = before' ++ rest') (hlength : (before.length : Int) = before'.length) :
    before = before' ∧ rest = rest' :=
  List.append_inj h (by omega)

/-- Tokens that are read from a text, with gaps between them, are those of a `Cut`. -/
theorem exists_cut_of_gaps {text rest : List Char} {tokens : List Token} {stop : Int}
    (before : List Char) (htext : text = before ++ rest)
    (hread : ∀ token ∈ tokens, ReadFrom text token)
    (hgaps : List.Forall₂ (GapBetween text) (before.length :: tokens.map (·.stop))
      (tokens.map (·.start) ++ [stop])) :
    ∃ pieces, Cut rest pieces (text.drop stop.toNat) ∧
      Lexer.tokensFrom before.length pieces = tokens := by
  induction tokens generalizing before rest with
  | nil =>
    obtain ⟨⟨before', gap, left, htext', hbefore, rfl, hgap⟩, -⟩ := List.forall₂_cons.mp hgaps
    -- The gap starts where what is left of the text does, so it is the start of that.
    rw [htext, List.append_assoc] at htext'
    obtain ⟨rfl, rfl⟩ := append_inj_of_length htext' hbefore
    obtain ⟨more, hmore, htokens⟩ := exists_cut_of_gap hgap .nil
    refine ⟨more, ?_, by rw [htokens]; rfl⟩
    have hleft : text.drop ((before ++ gap).length : Int).toNat = left := by
      rw [htext, ← List.append_assoc, Int.toNat_natCast, List.drop_left]
    rw [hleft]
    exact hmore
  | cons token tokens ih =>
    obtain ⟨⟨before', gap, after, htext', hbefore, hstart, hgap⟩, hgaps⟩ :=
      List.forall₂_cons.mp hgaps
    replace hstart : token.start = (before' ++ gap).length := hstart
    rw [htext, List.append_assoc] at htext'
    obtain ⟨rfl, rfl⟩ := append_inj_of_length htext' hbefore
    -- The token starts where the gap ends, so the text is divided there in the same way.
    obtain ⟨upto, body, later, htext', hstart', hstop, hscans, hlexeme⟩ :=
      hread token List.mem_cons_self
    rw [htext, ← List.append_assoc, List.append_assoc upto] at htext'
    obtain ⟨rfl, rfl⟩ := append_inj_of_length htext' (hstart.symm.trans hstart')
    replace hgaps : List.Forall₂ (GapBetween text)
        (((before ++ gap ++ body).length : Int) :: tokens.map (·.stop))
        (tokens.map (·.start) ++ [stop]) := by
      rw [← hstop]
      exact hgaps
    have hrest : text = before ++ gap ++ body ++ later := by rw [htext]; simp
    obtain ⟨pieces, hcut, htokens⟩ := ih (before ++ gap ++ body) hrest
      (fun t ht => hread t (List.mem_cons_of_mem _ ht)) hgaps
    -- The pieces of the gap, then that of the token, then those of the tokens after it.
    obtain ⟨more, hmore, hall⟩ := exists_cut_of_gap hgap (.cons hscans hcut)
    refine ⟨more, hmore, ?_⟩
    have hoffset : (before.length + gap.length : Int) = token.start := by
      rw [hstart, List.length_append]
      omega
    have hnext : token.start + body.length = (before ++ gap ++ body).length := by
      rw [hstart]
      simp only [List.length_append]
      omega
    rw [hall, hoffset, Lexer.tokensFrom, hnext, htokens, lexeme_eq_carriedText hscans, ← hlexeme,
      ← hstop]

/-- `Tokenization` of a text is that of the cut which leaves what follows it. -/
theorem exists_cut_of_tokenization {text : List Char} {tokens : List Token} {stop : Int}
    (h : Tokenization text tokens stop) :
    ∃ pieces, Cut text pieces (text.drop stop.toNat) ∧ Lexer.tokensFrom 0 pieces = tokens :=
  exists_cut_of_gaps [] rfl h.read h.gaps

/-! ## The tokens that the lexer finds -/

/-- `tokenize` finds the `Tokenization` of a text, and nothing else. -/
theorem tokenize_eq_ok_iff {text : List Char} {tokens : List Token} :
    tokenize text = .ok tokens ↔ Tokenization text tokens text.length := by
  constructor
  · intro h
    rcases hpieces : Lexer.pieces text with ⟨pieces, left⟩
    unfold tokenize at h
    rw [hpieces] at h
    obtain ⟨hcut, -⟩ := pieces_eq_iff.mp hpieces
    cases left with
    | nil =>
      cases h
      simpa using tokenization_of_cut hcut
    | cons quote rest => simp at h
  · intro h
    obtain ⟨pieces, hcut, rfl⟩ := exists_cut_of_tokenization h
    rw [Int.toNat_natCast, List.drop_length] at hcut
    unfold tokenize
    rw [pieces_eq_iff.mpr ⟨hcut, .inl rfl⟩]

/-- `tokenize` reports the string of a text that is never closed, and nothing else. -/
theorem tokenize_eq_error_iff {text : List Char} {fault : OpenString} :
    tokenize text = .error fault ↔ EndsOpen text fault := by
  constructor
  · intro h
    rcases hpieces : Lexer.pieces text with ⟨pieces, left⟩
    unfold tokenize at h
    rw [hpieces] at h
    obtain ⟨hcut, hstuck⟩ := pieces_eq_iff.mp hpieces
    rcases hstuck with rfl | ⟨quote, rest, rfl, hquote, hopen⟩
    · simp at h
    · cases h
      obtain ⟨before, rfl⟩ := hcut.exists_append
      refine ⟨⟨_, tokenization_of_cut hcut⟩, ⟨before, rest, rfl, ?_, hquote, hopen⟩, rfl⟩
      simp
  · rintro ⟨⟨tokens, htokens⟩, ⟨before, rest, rfl, hstart, hquote, hopen⟩, hstop⟩
    obtain ⟨pieces, hcut, rfl⟩ := exists_cut_of_tokenization htokens
    rw [hstart, Int.toNat_natCast, List.drop_left] at hcut
    -- the cut that the statement speaks of is the one that the lexer makes, since it is stuck
    -- behind it
    have hstuck : Stuck (fault.quote :: rest) := .inr ⟨_, rest, rfl, hquote, hopen⟩
    have hplace : ((before ++ fault.quote :: rest).length - (rest.length + 1 : Nat) : Int) =
        fault.start := by
      rw [hstart, List.length_append, List.length_cons]
      omega
    unfold tokenize
    rw [pieces_eq_iff.mpr ⟨hcut, hstuck⟩]
    dsimp only
    rw [hplace, ← hstop]

/-- Exact tokenization. The tokens that `tokenize` gives of a text are its `Tokenization`, the fault
of a text is the string in it that is never closed (`EndsOpen`), and each text has one of the two
and not the other. -/
theorem tokenize_exact (text : List Char) :
    (∀ tokens, tokenize text = .ok tokens ↔ Tokenization text tokens text.length) ∧
      (∀ fault, tokenize text = .error fault ↔ EndsOpen text fault) ∧
      Xor (∃! tokens, Tokenization text tokens text.length) (∃! fault, EndsOpen text fault) := by
  refine ⟨fun _ => tokenize_eq_ok_iff, fun _ => tokenize_eq_error_iff, ?_⟩
  -- The lexer answers in one way, so there is one tokenization or one open string.
  simp only [← tokenize_eq_ok_iff, ← tokenize_eq_error_iff]
  cases tokenize text with
  | ok tokens =>
    refine .inl ⟨⟨tokens, rfl, fun other h => (Except.ok.inj h).symm⟩, ?_⟩
    rintro ⟨fault, h, -⟩
    cases h
  | error fault =>
    refine .inr ⟨⟨fault, rfl, fun other h => (Except.error.inj h).symm⟩, ?_⟩
    rintro ⟨tokens, h, -⟩
    cases h

/-- The comment does not close at its own asterisk, nor the string at its escaped quote. -/
example : tokenize "/*/ x */a&&'\\''".toList =
    .ok [⟨.identifier, "a", 8, 9⟩, ⟨.operator, "and", 9, 11⟩, ⟨.string, "'\\''", 11, 15⟩] := by
  cbv

end NeutronLang.Lexicon
