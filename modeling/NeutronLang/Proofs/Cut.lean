import NeutronLang.Proofs.Lexicon

/-!
# Cuts

A cut of a text is a list of pieces, each of which a lexical rule allows before what follows it. The
lexer finds the one cut that can go no further (`pieces_eq_iff`), so that facts about it are facts
about cuts, which are closed under composition where the lexer's recursion is not.
-/

namespace NeutronLang.Lexicon

/-- A cut of a text into pieces that the lexicon has (`Scans`), up to what is left. -/
inductive Cut : List Char → List Piece → List Char → Prop where
  | nil {left : List Char} : Cut left [] left
  | cons {kind : Option TokenKind} {body after left : List Char} {pieces : List Piece} :
      Scans kind body after → Cut after pieces left →
      Cut (body ++ after) (⟨kind, body⟩ :: pieces) left

/-- What a `Cut` leaves of a text is an end of it. -/
theorem Cut.exists_append {text left : List Char} {pieces : List Piece}
    (h : Cut text pieces left) : ∃ before, text = before ++ left := by
  induction h with
  | nil => exact ⟨[], rfl⟩
  | cons _ _ ih =>
    obtain ⟨before, rfl⟩ := ih
    exact ⟨_ ++ before, (List.append_assoc _ _ _).symm⟩

/-- No piece can be cut off: nothing is left, or a string starts that is `Unclosed`. -/
def Stuck (left : List Char) : Prop :=
  left = [] ∨ ∃ quote rest, left = quote :: rest ∧ isQuote quote = true ∧ Unclosed quote rest

/-- What `Scans` has a first character. -/
theorem Scans.exists_cons {kind : Option TokenKind} {body rest : List Char}
    (h : Scans kind body rest) : ∃ c tail, body = c :: tail := by
  cases h <;> exact ⟨_, _, rfl⟩

/-- `pieces` goes on after the stretch that a rule allows. -/
theorem pieces_append {kind : Option TokenKind} {body after : List Char}
    (h : Scans kind body after) :
    Lexer.pieces (body ++ after) =
      (⟨kind, body⟩ :: (Lexer.pieces after).1, (Lexer.pieces after).2) := by
  obtain ⟨c, tail, rfl⟩ := h.exists_cons
  rw [List.cons_append, Lexer.pieces, firstPiece?_eq_of_scans h]
  simp

/-- `pieces` is the `Cut` that can go no further. -/
theorem pieces_eq_iff {text left : List Char} {pieces : List Piece} :
    Lexer.pieces text = (pieces, left) ↔ Cut text pieces left ∧ Stuck left := by
  constructor
  · intro h
    -- Along the recursion of the lexer: each piece that it cuts off is one that a rule allows.
    fun_induction Lexer.pieces text generalizing pieces with
    | case1 =>
      cases h
      exact ⟨.nil, .inl rfl⟩
    | case2 c rest hnone =>
      cases h
      obtain ⟨hquote, hopen⟩ := firstPiece?_eq_none_iff.mp hnone
      exact ⟨.nil, .inr ⟨c, rest, rfl, hquote, hopen⟩⟩
    | case3 c rest kind length hsome more rest' heq ih =>
      cases h
      obtain ⟨hcut, hstuck⟩ := ih heq
      obtain ⟨tail, after, rfl, rfl, hscans⟩ := exists_scans_of_firstPiece? hsome
      rw [List.take_left]
      rw [List.drop_left] at hcut
      exact ⟨.cons hscans hcut, hstuck⟩
  · rintro ⟨hcut, hstuck⟩
    -- Along the cut: the lexer cuts off the piece that the cut has first.
    induction hcut with
    | nil =>
      rcases hstuck with rfl | ⟨quote, rest, rfl, hquote, hopen⟩
      · rw [Lexer.pieces]
      · rw [Lexer.pieces, firstPiece?_eq_none_iff.mpr ⟨hquote, hopen⟩]
    | cons hscans _ ih => rw [pieces_append hscans, ih hstuck]

end NeutronLang.Lexicon
