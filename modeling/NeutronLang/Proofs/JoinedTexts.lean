import NeutronLang.Proofs.Frame
import NeutronLang.Proofs.Tokenization

/-!
# Two texts on lines of their own

A text put after another, with a line feed between the two, is cut as it is alone, and so is the
text before it. The line feed stops each piece that the end of the text stopped, an open comment
apart, which would swallow it. So the tokens of the two are those of the one and those of the other,
moved behind it, and lines end where they did.
-/

namespace NeutronLang

/-! ## Moving by a distance -/

/-- An open string with its offsets moved by `distance`. -/
def OpenString.shift (distance : Int) (fault : OpenString) : OpenString :=
  { fault with start := fault.start + distance, stop := fault.stop + distance }

/-- `shift` moves the span of the problem that an open string is. -/
theorem OpenString.span_problem_shift (distance : Int) (fault : OpenString) :
    (fault.shift distance).problem.span = fault.problem.span.shift distance :=
  (Span.shift_between distance fault.start fault.stop).symm

namespace Lexicon

/-- Every block comment of a text is closed: no piece that begins with the opening signs of one ends
without the closing ones. -/
def ClosesComments (text : List Char) : Prop :=
  ∀ piece ∈ (Lexer.pieces text).1, ['/', '*'] <+: piece.text → commentEnd <:+ piece.text.drop 2

/-! ## Pieces -/

/-- The first character of a text before a line feed is that of the text, or it is the line feed. -/
theorem head?_before_lineFeed {rest more : List Char} {d : Char}
    (h : d ∈ (rest ++ '\n' :: more).head?) : d ∈ rest.head? ∨ d = '\n' := by
  cases rest with
  | nil => exact .inr (Option.some.inj h).symm
  | cons c rest => exact .inl h

/-- What `Scans` at the end of a text does so before a line feed, open comments apart. -/
theorem Scans.before_lineFeed {kind : Option TokenKind} {body rest : List Char} (more : List Char)
    (h : Scans kind body rest) (hclosed : ['/', '*'] <+: body → commentEnd <:+ body.drop 2) :
    Scans kind body (rest ++ '\n' :: more) := by
  cases h with
  | blank hblank => exact .blank hblank
  | lineComment hbody hrest =>
    refine .lineComment hbody fun d hd => ?_
    rcases head?_before_lineFeed hd with hd | rfl
    · exact hrest d hd
    · rfl
  | blockComment hbody => exact .blockComment hbody
  | openComment hbody => exact absurd (hclosed ⟨_, rfl⟩).isInfix hbody
  | string hquote hbody => exact .string hquote hbody
  | number hdigit htail hrest =>
    refine .number hdigit htail fun d hd => ?_
    rcases head?_before_lineFeed hd with hd | rfl
    · exact hrest d hd
    · rfl
  | keyword hstart htail hrest hword =>
    refine .keyword hstart htail (fun d hd => ?_) hword
    rcases head?_before_lineFeed hd with hd | rfl
    · exact hrest d hd
    · rfl
  | identifier hstart htail hrest hword =>
    refine .identifier hstart htail (fun d hd => ?_) hword
    rcases head?_before_lineFeed hd with hd | rfl
    · exact hrest d hd
    · rfl
  | operator hmem => exact .operator hmem
  | symbol hblank hquote hdigit hstart hcomment hoperator =>
    refine .symbol hblank hquote hdigit hstart ?_ ?_
    · -- a slash at the end of the text is a symbol, and the line feed makes no comment of it
      rintro ⟨hslash, hnext⟩
      cases rest with
      | nil => rcases hnext with hnext | hnext <;> cases hnext
      | cons d rest => exact hcomment ⟨hslash, hnext⟩
    · rintro ⟨d, hd, carried, hmem⟩
      rcases head?_before_lineFeed hd with hd | rfl
      · exact hoperator ⟨d, hd, carried, hmem⟩
      · simp [operators] at hmem

/-- `Cut` of a whole text is one of the text before a line feed. -/
theorem Cut.before_lineFeed {text more left : List Char} {pieces morePieces : List Piece}
    (h : Cut text pieces [])
    (hclosed : ∀ piece ∈ pieces, ['/', '*'] <+: piece.text → commentEnd <:+ piece.text.drop 2)
    (hmore : Cut more morePieces left) :
    Cut (text ++ '\n' :: more) (pieces ++ ⟨none, ['\n']⟩ :: morePieces) left := by
  generalize hleft : ([] : List Char) = stop at h
  induction h with
  | nil =>
    rw [← hleft]
    exact .cons (.blank (by decide)) hmore
  | cons hscans hcut ih =>
    rename_i kind body after left' pieces
    have hscans := hscans.before_lineFeed more (hclosed _ List.mem_cons_self)
    have hcut := ih (fun piece hpiece => hclosed piece (List.mem_cons_of_mem _ hpiece)) hleft
    rw [List.append_assoc, List.cons_append]
    exact .cons hscans hcut

/-! ## Tokens -/

/-- `tokensFrom` finds tokens at the offsets where their pieces lie. -/
theorem tokensFrom_add (offset distance : Int) (pieces : List Piece) :
    Lexer.tokensFrom (offset + distance) pieces =
      (Lexer.tokensFrom offset pieces).map (Token.shift distance) := by
  induction pieces generalizing offset with
  | nil => rfl
  | cons piece pieces ih =>
    obtain ⟨kind, text⟩ := piece
    have hstop : offset + distance + text.length = offset + text.length + distance := by omega
    cases kind with
    | none => rw [Lexer.tokensFrom, Lexer.tokensFrom, hstop, ih]
    | some kind =>
      rw [Lexer.tokensFrom, Lexer.tokensFrom, List.map_cons, hstop, ih]
      rfl

/-- `tokensFrom` finds the tokens of further pieces from where the first pieces end. -/
theorem tokensFrom_append {text left : List Char} {pieces : List Piece} (offset : Int)
    (h : Cut text pieces left) (more : List Piece) :
    Lexer.tokensFrom offset (pieces ++ more) = Lexer.tokensFrom offset pieces ++
      Lexer.tokensFrom (offset + (text.length - left.length)) more := by
  induction h generalizing offset with
  | nil => simp [Lexer.tokensFrom]
  | cons hscans hcut ih =>
    rename_i kind body after left pieces
    have hstop : offset + ((body ++ after).length - left.length : Int) =
        offset + body.length + (after.length - left.length) := by
      rw [List.length_append]
      omega
    cases kind with
    | none => rw [List.cons_append, Lexer.tokensFrom, Lexer.tokensFrom, ih, hstop]
    | some kind =>
      rw [List.cons_append, Lexer.tokensFrom, Lexer.tokensFrom, ih, hstop]
      rfl

/-- `pieces` of two texts on lines of their own are those of each alone, with the line feed as a
piece between them. -/
theorem pieces_joined {text : List Char} (more : List Char) (h : (Lexer.pieces text).2 = [])
    (hclosed : ClosesComments text) :
    Lexer.pieces (text ++ '\n' :: more) =
      ((Lexer.pieces text).1 ++ ⟨none, ['\n']⟩ :: (Lexer.pieces more).1,
        (Lexer.pieces more).2) := by
  obtain ⟨hcut, -⟩ := pieces_eq_iff.mp (Prod.ext rfl h : Lexer.pieces text = (_, []))
  obtain ⟨hmore, hstuck⟩ := pieces_eq_iff.mp (rfl : Lexer.pieces more = (_, _))
  exact pieces_eq_iff.mpr ⟨hcut.before_lineFeed hclosed hmore, hstuck⟩

/-- The tokens of a text are those of its `pieces`, behind which nothing is left. -/
theorem pieces_of_tokenize {text : List Char} {tokens : List Token}
    (h : tokenize text = .ok tokens) :
    Lexer.tokensFrom 0 (Lexer.pieces text).1 = tokens ∧ (Lexer.pieces text).2 = [] := by
  unfold tokenize at h
  split at h
  · next pieces hpieces =>
    rw [hpieces]
    exact ⟨Except.ok.inj h, rfl⟩
  · cases h

/-- `tokenize` gives for two texts on lines of their own the tokens of the first and then those of
the second, moved behind it. -/
theorem tokenize_joined {text more : List Char} {tokens moreTokens : List Token}
    (h : tokenize text = .ok tokens) (hmore : tokenize more = .ok moreTokens)
    (hclosed : ClosesComments text) :
    tokenize (text ++ '\n' :: more) =
      .ok (tokens ++ moreTokens.map (Token.shift (text.length + 1))) := by
  obtain ⟨rfl, hleft⟩ := pieces_of_tokenize h
  obtain ⟨rfl, hmoreLeft⟩ := pieces_of_tokenize hmore
  obtain ⟨hcut, -⟩ := pieces_eq_iff.mp (Prod.ext rfl hleft : Lexer.pieces text = (_, []))
  unfold tokenize
  rw [pieces_joined more hleft hclosed, hmoreLeft]
  dsimp only
  rw [tokensFrom_append 0 hcut, Lexer.tokensFrom, ← tokensFrom_add]
  simp only [List.length_nil, List.length_singleton]
  congr 3

/-- `tokenize` finds a string that is never closed behind another text, too, where it lies there. -/
theorem tokenize_joined_error {text more : List Char} {tokens : List Token} {fault : OpenString}
    (h : tokenize text = .ok tokens) (hmore : tokenize more = .error fault)
    (hclosed : ClosesComments text) :
    tokenize (text ++ '\n' :: more) = .error (fault.shift (text.length + 1)) := by
  obtain ⟨-, hleft⟩ := pieces_of_tokenize h
  have hpieces := pieces_joined more hleft hclosed
  unfold tokenize at hmore ⊢
  rw [hpieces]
  -- what cannot be cut off is the same, so only the length of the text before it differs
  split at hmore
  · cases hmore
  · next pieces quote rest hmorePieces =>
    obtain rfl := Except.error.inj hmore
    rw [hmorePieces]
    simp only [OpenString.shift, List.length_append, List.length_cons, Except.error.injEq,
      OpenString.mk.injEq, true_and]
    constructor <;> omega

/-- A line feed keeps the texts before and behind it apart. Let a text have tokens and close its
comments. If the text on the lines after it has tokens, the two have those of the first and then
those of the second, and if a string is never closed in the second, the same is reported of the two;
what belongs to the second is moved by the length of the first and one. -/
theorem tokenize_lineFeed {text : List Char} {tokens : List Token} (h : tokenize text = .ok tokens)
    (hclosed : ClosesComments text) (more : List Char) :
    (∀ moreTokens, tokenize more = .ok moreTokens → tokenize (text ++ '\n' :: more) =
      .ok (tokens ++ moreTokens.map (Token.shift (text.length + 1)))) ∧
    ∀ fault, tokenize more = .error fault →
      tokenize (text ++ '\n' :: more) = .error (fault.shift (text.length + 1)) ∧
        (fault.shift (text.length + 1)).problem.span =
          fault.problem.span.shift (text.length + 1) := by
  constructor
  · intro moreTokens hmore
    exact tokenize_joined h hmore hclosed
  · intro fault hmore
    exact ⟨tokenize_joined_error h hmore hclosed, fault.span_problem_shift _⟩

/-- A slash on the line after two slashes is a symbol, and a string that is never closed is found on
the line after one that is closed, wherever that line ends. -/
theorem tokenize_lineFeed_comment :
    let text := "a /**/ '\n' //".toList
    let tokens : List Token := [⟨.identifier, "a", 0, 1⟩, ⟨.string, "'\n'", 7, 10⟩]
    tokenize text = .ok tokens ∧ ClosesComments text ∧
      tokenize (text ++ '\n' :: "/ b".toList) =
        .ok (tokens ++ [⟨.symbol, "/", 14, 15⟩, ⟨.identifier, "b", 16, 17⟩]) ∧
      tokenize (text ++ '\n' :: "c 'd".toList) = .error ⟨'\'', 16, 18⟩ := by
  intro text tokens
  have htokens : tokenize text = .ok tokens := by decide +kernel
  have hpieces : (Lexer.pieces text).1 = [⟨some .identifier, ['a']⟩, ⟨none, [' ']⟩,
      ⟨none, ['/', '*', '*', '/']⟩, ⟨none, [' ']⟩, ⟨some .string, ['\'', '\n', '\'']⟩,
      ⟨none, [' ']⟩, ⟨none, ['/', '/']⟩] := by decide +kernel
  have hclosed : ClosesComments text := by
    unfold ClosesComments
    rw [hpieces]
    decide
  have hmore : tokenize "/ b".toList = .ok [⟨.symbol, "/", 0, 1⟩, ⟨.identifier, "b", 2, 3⟩] := by
    decide +kernel
  have hopen : tokenize "c 'd".toList = .error ⟨'\'', 2, 4⟩ := by decide +kernel
  exact ⟨htokens, hclosed, (tokenize_lineFeed htokens hclosed _).1 _ hmore,
    ((tokenize_lineFeed htokens hclosed _).2 _ hopen).1⟩

/-! ## Lines -/

/-- `lineEnd` of an offset in a text is the first line break from there on. -/
theorem lineEnd_of_le {text : List Char} {offset : Int} (hpos : 0 ≤ offset)
    (hle : offset ≤ text.length) :
    Text.lineEnd text offset =
      offset + ((text.drop offset.toNat).takeWhile fun c => !Text.isLineBreak c).length := by
  unfold Text.lineEnd
  split
  · next hend =>
    have heq : offset.toNat = text.length := by omega
    rw [heq, List.drop_length]
    simp
    omega
  · unfold Text.readFrom
    rw [if_pos hpos]

/-- `lineEnd` in the first of two texts is what it was. -/
theorem lineEnd_first {text : List Char} (more : List Char) {offset : Int} (hpos : 0 ≤ offset)
    (hle : offset ≤ text.length) :
    Text.lineEnd (text ++ '\n' :: more) offset = Text.lineEnd text offset := by
  rw [lineEnd_of_le hpos hle, lineEnd_of_le hpos (by simp; omega),
    List.drop_append_of_le_length (by omega), List.takeWhile_append]
  have hbreak : ('\n' :: more).takeWhile (fun c => !Text.isLineBreak c) = [] := rfl
  split
  · next hall => rw [hbreak, List.append_nil, hall]
  · rfl

/-- `lineEnd` in the second of two texts is what it was, moved behind the first. -/
theorem lineEnd_second (text : List Char) {more : List Char} {offset : Int} (hpos : 0 ≤ offset)
    (hle : offset ≤ more.length) :
    Text.lineEnd (text ++ '\n' :: more) (offset + (text.length + 1)) =
      Text.lineEnd more offset + (text.length + 1) := by
  have hplace : (offset + (text.length + 1)).toNat = text.length + (offset.toNat + 1) := by omega
  rw [lineEnd_of_le hpos hle, lineEnd_of_le (by omega) (by simp; omega), hplace,
    List.drop_length_add_append, List.drop_succ_cons]
  omega

end Lexicon

end NeutronLang
