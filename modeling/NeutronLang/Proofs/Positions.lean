import Mathlib.Algebra.Ring.Nat
import Mathlib.Data.Prod.Lex
import NeutronLang.Proofs.ErrorOrder
import NeutronLang.Proofs.NotedMismatches

/-!
# Positions and offsets

A position counts the line feeds before an offset, and the characters since the last of them. The
lines of a text say the same without a scan: they are what is left between its line feeds, a
position names a line and a place in it (`Position.IsIn`), and the offset of that place is where the
line starts, as long as the lines before it are, and the characters before it (`Position.offset`).
The two are each other's inverse, and later offsets have later positions. Both facts go character by
character: a character before a text moves every position of it in the same way
(`Position.ofOffset_cons`).

The problems of a document are found at offsets in its text, none of which has to be moved to an end
of it (`Reading.isIn_of_mem_problems`). So the diagnostics of a document name places that it has.
-/

namespace NeutronLang

/-! ## Lines -/

namespace Text

/-- The lines of `text`, without the line feeds that end them. There is always a last one. -/
def lines (text : List Char) : List (List Char) := text.splitOn '\n'

/-- The offset at which the line of a number starts: the `lines` before it take up their characters
and one line feed each. -/
def lineStart (text : List Char) (line : Nat) : Nat :=
  (((lines text).take line).map fun before => before.length + 1).sum

variable {text : List Char} {c : Char}

/-- `lines` of a text without characters are one. -/
theorem lines_nil : lines [] = [[]] := List.splitOn_nil _

/-- `lines` of a text that starts with a line feed are those of the rest, after an empty one. -/
theorem lines_lineFeed (text : List Char) : lines ('\n' :: text) = [] :: lines text :=
  List.splitOn_cons_eq_if_modifyHead '\n' text

/-- `lines` of a text that starts with any other character have that character on the first line. -/
theorem lines_cons (h : c ≠ '\n') (text : List Char) : ∃ line rest, lines text = line :: rest ∧
    lines (c :: text) = (c :: line) :: rest := by
  obtain ⟨line, rest, hlines⟩ := List.exists_cons_of_ne_nil (List.splitOn_ne_nil '\n' text)
  refine ⟨line, rest, hlines, ?_⟩
  unfold lines
  rw [List.splitOn_cons_eq_if_modifyHead, if_neg (by simp [h]), hlines]
  rfl

/-- `lineStart` of the first line is the start of the text. -/
@[simp] theorem lineStart_zero (text : List Char) : lineStart text 0 = 0 := rfl

/-- `lineStart` of a later line is one character later after a line feed. -/
theorem lineStart_lineFeed (text : List Char) (line : Nat) :
    lineStart ('\n' :: text) (line + 1) = lineStart text line + 1 := by
  unfold lineStart
  rw [lines_lineFeed, List.take_succ_cons, List.map_cons, List.sum_cons, List.length_nil]
  omega

/-- `lineStart` of a later line is one character later if the first line has one character more. -/
theorem lineStart_cons (h : c ≠ '\n') (text : List Char) (line : Nat) :
    lineStart (c :: text) (line + 1) = lineStart text (line + 1) + 1 := by
  obtain ⟨first, rest, hlines, hmore⟩ := lines_cons h text
  unfold lineStart
  rw [hlines, hmore]
  simp only [List.take_succ_cons, List.map_cons, List.sum_cons, List.length_cons]
  omega

end Text

namespace Position

/-- A position as a pair, which comes before another one if its `line` does, or if it does on the
same line. -/
def key (position : Position) : ℕ ×ₗ ℕ := toLex (position.line, position.character)

/-- Whether `text` has a position: the line, and on it as many characters. -/
def IsIn (text : List Char) (position : Position) : Prop :=
  ∃ line ∈ (Text.lines text)[position.line]?, position.character ≤ line.length

/-- The offset of a position: where its line starts (`Text.lineStart`) and the characters before it
on the line. -/
def offset (text : List Char) (position : Position) : Nat :=
  Text.lineStart text position.line + position.character

/-- A position moved by a character `c` before the text. -/
def behind (c : Char) (position : Position) : Position :=
  if c = '\n' then ⟨position.line + 1, position.character⟩
  else if position.line = 0 then ⟨0, position.character + 1⟩
  else position

variable {text : List Char} {position : Position} {c : Char}

/-! ## The scan -/

/-- A scan that starts elsewhere counts on from there: characters count on as long as no line feed
has come. -/
theorem foldl_after (text : List Char) (origin : Position) :
    text.foldl after origin =
      if (text.foldl after start).line = 0 then
        ⟨origin.line, origin.character + (text.foldl after start).character⟩
      else ⟨origin.line + (text.foldl after start).line, (text.foldl after start).character⟩ := by
  induction text generalizing origin with
  | nil => rfl
  | cons c text ih =>
    rw [List.foldl_cons, List.foldl_cons, ih (after origin c), ih (after start c)]
    generalize text.foldl after start = rest
    unfold after start
    by_cases hc : c = '\n' <;> by_cases hline : rest.line = 0 <;> simp [hc, hline] <;> omega

/-- `ofOffset` one further behind a character is the same place moved by it. -/
theorem ofOffset_cons (c : Char) (text : List Char) (i : Nat) :
    ofOffset (c :: text) (i + 1 : Nat) = behind c (ofOffset text i) := by
  unfold ofOffset behind
  rw [Int.toNat_natCast, Int.toNat_natCast, List.take_succ_cons, List.foldl_cons, foldl_after]
  by_cases hc : c = '\n'
  · simp only [after, start, hc, if_true]
    split <;> simp_all +arith
  · simp only [after, start, hc, if_false]
    split <;> simp_all +arith

/-- `ofOffset` past the end is the position of the end. -/
theorem ofOffset_of_length_le {i : Int} (h : (text.length : Int) ≤ i) :
    ofOffset text i = ofOffset text text.length := by
  unfold ofOffset
  rw [List.take_of_length_le (by omega), List.take_of_length_le (by omega)]

/-- `ofOffset` has as its line the number of line feeds before the offset. -/
theorem line_ofOffset (text : List Char) (i : Int) :
    (ofOffset text i).line = (text.take i.toNat).count '\n' := by
  unfold ofOffset
  induction text.take i.toNat with
  | nil => rfl
  | cons c before ih =>
    rw [List.foldl_cons, foldl_after, List.count_cons, ← ih]
    by_cases hc : c = '\n'
    · simp only [after, start, hc, if_true, beq_self_eq_true]
      split <;> simp_all +arith
    · have hne : (c == '\n') = false := beq_eq_false_iff_ne.mpr hc
      simp only [after, start, hc, hne, if_false, Bool.false_eq_true]
      split <;> simp_all +arith

/-! ## Positions in a text -/

/-- `start` is in every text. -/
theorem isIn_start (text : List Char) : start.IsIn text := by
  obtain ⟨line, rest, hlines⟩ := List.exists_cons_of_ne_nil (List.splitOn_ne_nil '\n' text)
  refine ⟨line, ?_, Nat.zero_le _⟩
  unfold Text.lines
  rw [hlines]
  rfl

/-- `IsIn` a text without characters is no other position than `start`. -/
theorem isIn_nil_iff : position.IsIn [] ↔ position = start := by
  constructor
  · rintro ⟨line, hline, hle⟩
    obtain ⟨number, character⟩ := position
    rw [Text.lines_nil] at hline
    cases number with
    | zero =>
      obtain rfl := Option.some.inj hline
      obtain rfl := Nat.le_zero.mp hle
      rfl
    | succ number => cases hline
  · rintro rfl
    exact isIn_start []

/-- `IsIn` a text are its start and the positions of the text behind its first character, moved. -/
theorem isIn_cons_iff : position.IsIn (c :: text) ↔
    position = start ∨ ∃ before, before.IsIn text ∧ position = behind c before := by
  obtain ⟨number, character⟩ := position
  unfold behind IsIn start
  by_cases hc : c = '\n'
  · -- the first line is empty, and the others are those of the rest
    subst hc
    simp only [if_true, Text.lines_lineFeed, mk.injEq]
    constructor
    · rintro ⟨line, hline, hle⟩
      cases number with
      | zero =>
        obtain rfl := Option.some.inj hline
        exact .inl ⟨rfl, Nat.le_zero.mp hle⟩
      | succ number => exact .inr ⟨⟨number, character⟩, ⟨line, hline, hle⟩, rfl, rfl⟩
    · rintro (⟨rfl, rfl⟩ | ⟨before, ⟨line, hline, hle⟩, rfl, rfl⟩)
      · exact ⟨[], rfl, Nat.le_refl _⟩
      · exact ⟨line, hline, hle⟩
  · -- the first line is longer by the character
    obtain ⟨first, rest, hlines, hmore⟩ := Text.lines_cons hc text
    simp only [hc, if_false, hlines, hmore]
    constructor
    · rintro ⟨line, hline, hle⟩
      cases number with
      | zero =>
        obtain rfl := Option.some.inj hline
        cases character with
        | zero => exact .inl rfl
        | succ character =>
          exact .inr ⟨⟨0, character⟩, ⟨first, rfl, Nat.le_of_succ_le_succ hle⟩, rfl⟩
      | succ number => exact .inr ⟨⟨number + 1, character⟩, ⟨line, hline, hle⟩, rfl⟩
    · rintro (hstart | ⟨⟨before, place⟩, ⟨line, hline, hle⟩, heq⟩)
      · cases hstart
        exact ⟨c :: first, rfl, Nat.zero_le _⟩
      · cases before with
        | zero =>
          cases heq
          obtain rfl := Option.some.inj hline
          exact ⟨c :: first, rfl, Nat.succ_le_succ hle⟩
        | succ before =>
          cases heq
          exact ⟨line, hline, hle⟩

/-- `offset` of a position behind one more character is larger by one. -/
theorem offset_behind (c : Char) (text : List Char) (position : Position) :
    (behind c position).offset (c :: text) = position.offset text + 1 := by
  obtain ⟨number, character⟩ := position
  unfold behind offset
  by_cases hc : c = '\n'
  · subst hc
    simp only [if_true, Text.lineStart_lineFeed]
    omega
  · cases number with
    | zero => simp [hc]
    | succ number =>
      simp only [hc, if_false, Nat.add_one_ne_zero, Text.lineStart_cons hc]
      omega

/-- `ofOffset` gives a position in the text. -/
theorem isIn_ofOffset (text : List Char) (i : Nat) : (ofOffset text i).IsIn text := by
  induction text generalizing i with
  | nil =>
    refine isIn_nil_iff.mpr ?_
    unfold ofOffset
    rw [List.take_nil]
    rfl
  | cons c text ih =>
    cases i with
    | zero => exact isIn_start _
    | succ i =>
      rw [ofOffset_cons]
      exact isIn_cons_iff.mpr (.inr ⟨_, ih i, rfl⟩)

/-- `offset` takes the position of an offset back to it. -/
theorem offset_ofOffset {i : Nat} (h : i ≤ text.length) : (ofOffset text i).offset text = i := by
  induction text generalizing i with
  | nil =>
    obtain rfl := Nat.le_zero.mp h
    rfl
  | cons c text ih =>
    cases i with
    | zero => rfl
    | succ i => rw [ofOffset_cons, offset_behind, ih (Nat.le_of_succ_le_succ h)]

/-- `ofOffset` takes the offset of a position in the text back to it. -/
theorem ofOffset_offset (h : position.IsIn text) :
    position.offset text ≤ text.length ∧ ofOffset text (position.offset text) = position := by
  induction text generalizing position with
  | nil =>
    obtain rfl := isIn_nil_iff.mp h
    exact ⟨Nat.le_refl _, rfl⟩
  | cons c text ih =>
    rcases isIn_cons_iff.mp h with rfl | ⟨before, hbefore, rfl⟩
    · exact ⟨Nat.zero_le _, rfl⟩
    · obtain ⟨hle, heq⟩ := ih hbefore
      rw [offset_behind, ofOffset_cons, heq]
      exact ⟨Nat.succ_le_succ hle, rfl⟩

/-- `ofOffset` gives a later position for a later offset. -/
theorem key_lt_key {i j : Nat} (h : i < j) (hle : j ≤ text.length) :
    (ofOffset text i).key < (ofOffset text j).key := by
  have hlines : (ofOffset text i).line ≤ (ofOffset text j).line := by
    rw [line_ofOffset, line_ofOffset, Int.toNat_natCast, Int.toNat_natCast]
    exact (List.take_sublist_take_left (Nat.le_of_lt h)).count_le _
  have hi : (ofOffset text i).offset text = i := offset_ofOffset (by omega)
  have hj := offset_ofOffset hle
  unfold offset at hi hj
  refine Prod.Lex.toLex_lt_toLex.mpr ?_
  rcases Nat.lt_or_eq_of_le hlines with hlt | heq
  · exact .inl hlt
  · -- on one line the offsets differ as the characters do
    rw [heq] at hi
    exact .inr ⟨heq, show (ofOffset text i).character < (ofOffset text j).character by omega⟩

/-- `ofOffset` gives no earlier position for an offset that is not earlier. -/
theorem key_le_key {i j : Nat} (h : i ≤ j) (hle : j ≤ text.length) :
    (ofOffset text i).key ≤ (ofOffset text j).key := by
  rcases Nat.lt_or_eq_of_le h with hlt | rfl
  · exact le_of_lt (key_lt_key hlt hle)
  · exact le_refl _

end Position

open Grammar Rendering

/-! ## Where problems are -/

/-- Whether a span lies in `text`. -/
def Span.IsIn (text : List Char) (span : Span) : Prop :=
  0 ≤ span.start ∧ span.stop ≤ text.length

variable {text : List Char} {tokens : List Token} {reading : Reading}

/-- A syntax error that `IsPlaced` lies in the text: it is about a token or about the end of a
statement. -/
theorem SyntaxError.IsPlaced.isIn {error : SyntaxError}
    (h : error.IsPlaced (Text.lineEnd text) tokens text.length)
    (hlaid : Laid 0 tokens text.length) : error.span.IsIn text := by
  by_cases hcode : error.fault.code = "P003"
  · obtain ⟨hstart, -, hstop, -⟩ := h.line hlaid hcode
    exact ⟨hstart, hstop⟩
  · have htoken : error.fault.code ∈ ["P001", "P002", "P010"] := by
      have hcodes := h.code
      simp only [List.mem_cons, hcode, false_or] at hcodes ⊢
      exact hcodes
    obtain ⟨index, token, -, -, hstart, hstop, -, hfound⟩ := h.exists_token hlaid htoken
    have hmem : token ∈ tokens :=
      hfound.elim List.mem_of_getElem? fun hlast => List.mem_of_getLast? hlast.2
    obtain ⟨hpos, -, hlast⟩ := hlaid.between token hmem
    exact ⟨hstart ▸ hpos, hstop ▸ hlast⟩

/-- The nodes of a document lie in its text. -/
theorem Reading.isIn_of_mem_subtrees (h : readDocument text = .ok reading) {statement node : Node}
    (hstatement : statement ∈ reading.statements) (hnode : node ∈ statement.subtrees) :
    node.span.IsIn text := by
  obtain ⟨tokens, htokens, hcourse⟩ := exists_course h
  have hlaid := laid_of_tokenize htokens
  have hread : Cursor.Reads (.ofTokens tokens) tokens ⟨tokens.reverse, []⟩ := by
    constructor <;> simp [Cursor.ofTokens]
  have hlast := (hread.laid hlaid).2.le
  have hlie : Lie 0 reading.statements text.length :=
    Lie.mono (hcourse.lie hlaid) (Int.le_refl _) hlast
  obtain ⟨hstart, hstop⟩ := hlie.row.between.1 statement hstatement
  obtain ⟨hstart', hstop'⟩ := (hlie.nests statement hstatement).within node hnode
  exact ⟨by omega, by omega⟩

/-- The problems of a document lie in its text. -/
theorem Reading.isIn_of_mem_problems (h : readDocument text = .ok reading) {nested : Bool}
    {problem : Problem} (hproblem : problem ∈ reading.problems nested) :
    problem.span.IsIn text := by
  rcases List.mem_append.mp hproblem with hproblem | hproblem
  · obtain ⟨error, herror, rfl⟩ := List.mem_map.mp hproblem
    obtain ⟨tokens, htokens, hcourse⟩ := exists_course h
    have hlaid := laid_of_tokenize htokens
    exact ((hcourse.errorsBetween hlaid).1.placed error herror).isIn hlaid
  · obtain ⟨mismatch, hmismatch, rfl⟩ := List.mem_map.mp hproblem
    -- a mismatch spans the value of its binding
    obtain ⟨binding, hbinding, typeOf?, hjudgement⟩ := isOf_of_mem_mismatches hmismatch
    obtain ⟨-, -, value, -, hvalue, -, hspan⟩ := Node.exists_children_of_judgement hjudgement
    obtain ⟨statement, hstatement, hnode⟩ := Node.exists_mem_subtrees_of_binding hbinding hvalue
    show mismatch.span.IsIn text
    rw [hspan]
    exact isIn_of_mem_subtrees h hstatement hnode

/-! ## Texts and their positions -/

/-- The positions of a text (`Position.ofOffset`) say the same as its offsets, and diagnostics are
at places of the text. -/
structure PositionsExact (text : List Char) : Prop where
  /-- Later offsets have later positions, by lines and then by characters. -/
  increasing : ∀ i j : Int, 0 ≤ i → i < j → j ≤ text.length →
    (Position.ofOffset text i).key < (Position.ofOffset text j).key
  /-- The line is the number of line feeds before the offset. -/
  line : ∀ i : Int, (Position.ofOffset text i).line = (text.take i.toNat).count '\n'
  /-- The start of that line and the characters on it give the offset back. -/
  offset : ∀ i : Int, 0 ≤ i → i ≤ text.length →
    (Text.lineStart text (Position.ofOffset text i).line + (Position.ofOffset text i).character :
      Int) = i
  /-- The positions of the text are those of its offsets, of which each has one. -/
  positions : ∀ position : Position, position.IsIn text ↔
    ∃ i : Nat, i ≤ text.length ∧ Position.ofOffset text i = position
  /-- Offsets past the end have the position of the end. -/
  past : ∀ i : Int, text.length ≤ i →
    Position.ofOffset text i = Position.ofOffset text text.length
  /-- Whatever the settings, a diagnostic ranges from an offset of the text to one that is not
  earlier, and neither had to be moved into the text. -/
  found : ∀ file settings, ∀ diagnostic ∈ (validate file text settings).diagnostics,
    ∃ i j : Nat, i ≤ j ∧ j ≤ text.length ∧ diagnostic.start = Position.ofOffset text i ∧
      diagnostic.stop = Position.ofOffset text j
  /-- A diagnostic does not end before it starts, and both are positions of the text. -/
  diagnostics : ∀ file settings, ∀ diagnostic ∈ (validate file text settings).diagnostics,
    diagnostic.start.key ≤ diagnostic.stop.key ∧ diagnostic.start.IsIn text ∧
      diagnostic.stop.IsIn text

/-- The positions of every text are exact, as `PositionsExact` spells out. -/
theorem positions_exact (text : List Char) : PositionsExact text := by
  -- diagnostics start and stop at offsets of the text, since problems do
  have hfound : ∀ file settings, ∀ diagnostic ∈ (validate file text settings).diagnostics,
      ∃ i j : Nat, i ≤ j ∧ j ≤ text.length ∧ diagnostic.start = Position.ofOffset text i ∧
        diagnostic.stop = Position.ofOffset text j := by
    intro file settings diagnostic hdiagnostic
    obtain ⟨reading, problem, hreading, hproblem, rfl⟩ :=
      exists_problem_of_mem_diagnostics hdiagnostic
    obtain ⟨hstart, hstop⟩ := Reading.isIn_of_mem_problems hreading hproblem
    have hspan := problem.span.start_le_stop
    refine ⟨problem.span.start.toNat, problem.span.stop.toNat, by omega, by omega, ?_, ?_⟩
    · rw [Int.toNat_of_nonneg hstart]
      rfl
    · rw [Int.toNat_of_nonneg (by omega)]
      rfl
  constructor
  · intro i j hi hij hj
    have hlt : (Position.ofOffset text i.toNat).key < (Position.ofOffset text j.toNat).key :=
      Position.key_lt_key (by omega) (by omega)
    rwa [Int.toNat_of_nonneg hi, Int.toNat_of_nonneg (by omega)] at hlt
  · exact Position.line_ofOffset text
  · intro i hi hle
    have heq : (Position.ofOffset text i.toNat).offset text = i.toNat :=
      Position.offset_ofOffset (by omega)
    unfold Position.offset at heq
    rw [Int.toNat_of_nonneg hi] at heq
    omega
  · intro position
    constructor
    · intro h
      obtain ⟨hle, heq⟩ := Position.ofOffset_offset h
      exact ⟨_, hle, heq⟩
    · rintro ⟨i, -, rfl⟩
      exact Position.isIn_ofOffset text i
  · exact fun i => Position.ofOffset_of_length_le
  · exact hfound
  · intro file settings diagnostic hdiagnostic
    obtain ⟨i, j, hij, hj, hstart, hstop⟩ := hfound file settings diagnostic hdiagnostic
    rw [hstart, hstop]
    exact ⟨Position.key_le_key hij hj, Position.isIn_ofOffset text i, Position.isIn_ofOffset text j⟩

/-- A carriage return is a character like others, and the line starts behind the line feed. -/
example : Position.ofOffset "a\r\nb".toList 2 = ⟨0, 2⟩ ∧
    Position.ofOffset "a\r\nb".toList 3 = ⟨1, 0⟩ ∧ Text.lineStart "a\r\nb".toList 1 = 3 := by
  decide

end NeutronLang
