import Mathlib.Data.Nat.Digits.Defs
import NeutronLang.CommandLine.Report
import NeutronLang.Proofs.PlainMessages

/-!
# Lines of output

Each item of a report is printed on one line. JSON is written in the printable characters of ASCII,
whatever the texts inside (`Json.inAscii_compact`), and none of these breaks a line. A diagnostic in
words is as plain as its message, so of what stands around it only the path could break the line.
-/

namespace NeutronLang

namespace Text

/-! ## Line breaks -/

/-- Whether a character ends a line in any of the usual readings: the line feed and the carriage
return, but also the tabulator between lines, the form feed, the information separators, the next
line, and the separators of lines and paragraphs. -/
def breaksLine (c : Char) : Bool :=
  [0x0a, 0x0b, 0x0c, 0x0d, 0x1c, 0x1d, 0x1e, 0x85, 0x2028, 0x2029].contains c.toNat

/-- Whether nothing in a text breaks its line (`breaksLine`). -/
def isOneLine (text : String) : Bool := text.toList.all fun c => !breaksLine c

/-- `isOneLine` holds of two texts together if it does of each. -/
@[simp] theorem isOneLine_append (first second : String) :
    isOneLine (first ++ second) = (isOneLine first && isOneLine second) := by
  simp [isOneLine]

/-- `isOneLine` holds if it does of each character that it breaks no line. -/
theorem isOneLine_iff {text : String} :
    isOneLine text = true ↔ ∀ c ∈ text.toList, breaksLine c = false := by
  simp [isOneLine]

/-- What `breaksLine` is blank, and it is not the space. -/
theorem isBlank_of_breaksLine {c : Char} (h : breaksLine c = true) :
    isBlank c = true ∧ c ≠ ' ' := by
  have hcode := List.contains_iff_mem.mp h
  refine ⟨?_, ?_⟩
  · simp only [List.mem_cons, List.not_mem_nil, or_false] at hcode
    simp only [isBlank, blankRanges, List.any_cons, List.any_nil, Bool.or_false, Bool.or_eq_true,
      Bool.and_eq_true, decide_eq_true_eq]
    omega
  · rintro rfl
    exact absurd hcode (by decide)

/-- A text consists of `count` lines, each of which ends with a line feed and has no other break in
it. -/
def HasLines (text : String) (count : Nat) : Prop :=
  ∃ lines : List String, lines.length = count ∧ text = String.join (lines.map (· ++ "\n")) ∧
    ∀ line ∈ lines, isOneLine line = true

/-- `isOneLine` holds of a plain text. -/
theorem isOneLine_of_isPlain {text : String} (h : isPlain text = true) : isOneLine text = true := by
  refine isOneLine_iff.mpr fun c hc => Bool.eq_false_iff.mpr fun hbreaks => ?_
  obtain ⟨hblank, hspace⟩ := isBlank_of_breaksLine hbreaks
  have hplain := List.all_eq_true.mp h c hc
  simp [hblank, hspace] at hplain

/-! ## Printable characters of ASCII -/

/-- Whether a character is a printable one of ASCII. -/
def isAscii (c : Char) : Bool := 0x20 ≤ c.toNat && c.toNat < 0x7f

/-- Texts of characters of which each `isAscii`. -/
def InAscii (text : List Char) : Prop := ∀ c ∈ text, isAscii c = true

instance (text : List Char) : Decidable (InAscii text) :=
  decidable_of_iff (text.all isAscii = true) List.all_eq_true

/-- `breaksLine` is false for a printable character of ASCII. -/
theorem not_breaksLine_of_isAscii {c : Char} (h : isAscii c = true) : breaksLine c = false := by
  refine Bool.eq_false_iff.mpr fun hbreaks => ?_
  have hcode := List.contains_iff_mem.mp hbreaks
  simp only [List.mem_cons, List.not_mem_nil, or_false] at hcode
  simp only [isAscii, Bool.and_eq_true, decide_eq_true_eq] at h
  omega

/-- `isOneLine` holds of a text in ASCII. -/
theorem InAscii.isOneLine {text : String} (h : InAscii text.toList) : isOneLine text = true :=
  isOneLine_iff.mpr fun c hc => not_breaksLine_of_isAscii (h c hc)

/-- `InAscii` holds of two texts together if it does of each. -/
theorem InAscii.append {first second : List Char} (h : InAscii first) (hsecond : InAscii second) :
    InAscii (first ++ second) := List.forall_mem_append.mpr ⟨h, hsecond⟩

/-- `InAscii` stays true with one more character of ASCII. -/
theorem InAscii.cons {c : Char} {text : List Char} (hc : isAscii c = true) (h : InAscii text) :
    InAscii (c :: text) := List.forall_mem_cons.mpr ⟨hc, h⟩

/-- `InAscii` holds of zeros. -/
theorem inAscii_zeros (count : Nat) : InAscii (List.replicate count '0') := fun _ hc => by
  rw [List.eq_of_mem_replicate hc]
  rfl

/-- `InAscii` holds of the digits of decimal numbers and of hexadecimal ones. -/
theorem inAscii_toDigits {base : Nat} (hbase : 1 < base) (hle : base ≤ 16) (n : Nat) :
    InAscii (Nat.toDigits base n) := by
  have hdigits : ∀ d < 16, InAscii [Nat.digitChar d] := by decide
  induction n using Nat.strongRecOn with
  | ind n ih =>
    rw [Nat.toDigits_eq_if hbase]
    split
    · exact hdigits n (by omega)
    · have hlast : n % base < base := Nat.mod_lt n (by omega)
      exact (ih _ (Nat.div_lt_self (by omega) hbase)).append (hdigits _ (by omega))

/-- `InAscii` holds of written numbers. -/
theorem inAscii_nat (n : Nat) : InAscii (toString n).toList := by
  rw [show toString n = n.repr from rfl, Nat.toList_repr]
  exact inAscii_toDigits (by decide) (by decide) n

/-- `InAscii` holds of written numbers with a sign. -/
theorem inAscii_int (n : Int) : InAscii (toString n).toList := by
  cases n with
  | ofNat n => exact inAscii_nat n
  | negSucc n =>
    show InAscii ("-" ++ toString (n + 1)).toList
    rw [String.toList_append]
    exact InAscii.append (by decide) (inAscii_nat (n + 1))

/-- `InAscii` holds of hexadecimal numbers. -/
theorem inAscii_hex (width n : Nat) : InAscii (hex width n) :=
  (inAscii_zeros _).append (inAscii_toDigits (by decide) (by decide) n)

end Text

open Text

/-! ## Written doubles -/

namespace Decimal

variable {digits : List Char}

/-- `InAscii` holds of digits written positionally. -/
theorem inAscii_positional (h : InAscii digits) (exponent : Int) :
    InAscii (positional digits exponent) := by
  unfold positional
  dsimp only
  split
  · exact (h.append (inAscii_zeros _)).append (by decide)
  split
  · refine InAscii.append (fun c hc => h c (List.mem_of_mem_take hc)) (.cons rfl fun c hc => ?_)
    exact h c (List.mem_of_mem_drop hc)
  · exact .cons rfl (.cons rfl ((inAscii_zeros _).append h))

/-- `InAscii` holds of digits with an exponent. -/
theorem inAscii_scientific (h : InAscii digits) (width : Nat) (order : Int) :
    InAscii (scientific width digits order) := by
  have hexponent : InAscii (padded width order.natAbs) :=
    (inAscii_zeros _).append (inAscii_toDigits (by decide) (by decide) _)
  have hfirst : InAscii (digits.take 1) := fun c hc => h c (List.mem_of_mem_take hc)
  have hpoint : InAscii (if digits.length ≤ 1 then [] else '.' :: digits.drop 1) := by
    split
    · exact fun _ hc => nomatch hc
    · exact .cons rfl fun c hc => h c (List.mem_of_mem_drop hc)
  have hsign : isAscii (if order < 0 then '-' else '+') = true := by split <;> rfl
  exact (hfirst.append hpoint).append (.cons rfl (.cons hsign hexponent))

/-- `InAscii` holds of a written double if it does of the names of its layout. -/
theorem Layout.inAscii_write {layout : Layout} (hinfinity : InAscii layout.infinity.toList)
    (hname : InAscii layout.notANumber.toList) (x : Float) : InAscii (layout.write x).toList := by
  have hsign : InAscii (if Nat.pow 2 63 ≤ x.toBits.toNat then ['-'] else []) := by
    split <;> decide
  unfold Layout.write
  dsimp only
  split
  · exact hname
  split
  · rw [String.toList_append, String.toList_ofList]
    exact hsign.append hinfinity
  · rw [String.toList_ofList]
    have hdigits (n : Nat) : InAscii (Nat.toDigits 10 n) :=
      inAscii_toDigits (by decide) (by decide) n
    refine hsign.append ?_
    split
    · exact inAscii_positional (hdigits _) _
    · exact inAscii_scientific (hdigits _) _ _

end Decimal

/-! ## JSON on one line -/

namespace Json

/-- `InAscii` holds of the written form of a character of a text. -/
theorem inAscii_escaped (c : Char) : InAscii (escaped c) := by
  have hunit (unit : Nat) : InAscii (unitEscape unit) := .cons rfl (.cons rfl (inAscii_hex 4 unit))
  unfold escaped
  split
  · next h =>
    rcases Bool.or_eq_true_iff.mp h with h | h <;> rw [beq_iff_eq.mp h] <;> decide
  iterate 5
    split
    · decide
  split
  · next h => exact .cons h (by decide)
  split
  · exact hunit _
  · exact (hunit _).append (hunit _)

/-- `InAscii` holds of the written form of a text. -/
theorem inAscii_writeText (value : String) : InAscii (writeText value) := by
  refine InAscii.append (.cons rfl fun c hc => ?_) (by decide)
  obtain ⟨source, -, hc⟩ := List.mem_flatMap.mp hc
  exact inAscii_escaped source c hc

mutual

/-- `InAscii` holds of a value on one line. -/
theorem inAscii_compact : (value : Json) → InAscii value.compact
  | null => by
    rw [compact]
    decide
  | bool true => by
    rw [compact]
    decide
  | bool false => by
    rw [compact]
    decide
  | int value => by
    rw [compact]
    exact inAscii_int value
  | double value => by
    rw [compact]
    exact Decimal.Layout.inAscii_write (by decide) (by decide) value
  | text value => by
    rw [compact]
    exact inAscii_writeText value
  | list items => by
    rw [compact]
    exact InAscii.append (.cons rfl (inAscii_compactItems items)) (by decide)
  | object members => by
    rw [compact]
    exact InAscii.append (.cons rfl (inAscii_compactMembers members)) (by decide)

/-- `InAscii` holds of the items of a list. -/
theorem inAscii_compactItems : (items : List Json) → InAscii (compactItems items)
  | [] => by
    rw [compactItems]
    exact fun _ hc => nomatch hc
  | [item] => by
    rw [compactItems]
    exact inAscii_compact item
  | first :: second :: items => by
    rw [compactItems]
    · have hfirst : InAscii (compact first ++ separator) :=
        (inAscii_compact first).append (by decide)
      exact hfirst.append (inAscii_compactItems (second :: items))
    · exact fun h => nomatch h

/-- `InAscii` holds of the members of an object. -/
theorem inAscii_compactMembers :
    (members : List (String × Json)) → InAscii (compactMembers members)
  | [] => by
    rw [compactMembers]
    exact fun _ hc => nomatch hc
  | [(name, value)] => by
    rw [compactMembers]
    exact (inAscii_writeText name).append (.cons rfl (.cons rfl (inAscii_compact value)))
  | (name, value) :: second :: members => by
    rw [compactMembers]
    · have hvalue : InAscii (':' :: ' ' :: compact value) :=
        .cons rfl (.cons rfl (inAscii_compact value))
      have hmember : InAscii (writeText name ++ ':' :: ' ' :: compact value ++ separator) :=
        ((inAscii_writeText name).append hvalue).append (by decide)
      exact hmember.append (inAscii_compactMembers (second :: members))
    · exact fun h => nomatch h

end

/-- `line` writes JSON on one line. -/
theorem isOneLine_line (value : Json) : isOneLine value.line = true := by
  refine InAscii.isOneLine ?_
  rw [line, String.toList_ofList]
  exact inAscii_compact value

end Json

/-! ## Diagnostics in words -/

namespace Diagnostic

/-- `place` is two numbers on one line. -/
theorem isOneLine_place (diagnostic : Diagnostic) : isOneLine diagnostic.place = true := by
  have hnumber (n : Nat) : isOneLine (toString n) = true := (inAscii_nat n).isOneLine
  show isOneLine (toString (diagnostic.start.line + 1) ++ ":" ++
    toString (diagnostic.start.character + 1)) = true
  simp only [isOneLine_append, Bool.and_eq_true]
  exact ⟨⟨hnumber _, by decide⟩, hnumber _⟩

/-- `inFile` prints a diagnostic of a document on one line if the path is on one. -/
theorem isOneLine_inFile {file path : String} {text : List Char} {settings : Settings}
    {diagnostic : Diagnostic} (h : diagnostic ∈ (validate file text settings).diagnostics)
    (hpath : isOneLine path = true) : isOneLine (diagnostic.inFile path) = true := by
  have hmessage := isOneLine_of_isPlain (isPlain_of_mem_diagnostics h)
  obtain ⟨reading, problem, -, -, rfl⟩ := exists_problem_of_mem_diagnostics h
  have hsource : isOneLine defaultSource = true := by decide
  have hcolon : isOneLine ":" = true := by decide
  have hkind : isOneLine ": error: " = true := by decide
  have hopening : isOneLine " [" = true := by decide
  have hclosing : isOneLine "]" = true := by decide
  unfold inFile
  simp only [isOneLine_append, Bool.and_eq_true]
  -- part by part, the path first
  exact ⟨⟨⟨⟨⟨⟨⟨hpath, hcolon⟩, isOneLine_place _⟩, hkind⟩, hmessage⟩, hopening⟩, hsource⟩, hclosing⟩

end Diagnostic

end NeutronLang
