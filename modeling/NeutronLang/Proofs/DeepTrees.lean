import NeutronLang.Proofs.RecursiveRecords
import NeutronLang.Proofs.RenderedPrograms
import NeutronLang.Text.Utf8

/-!
# Trees of any depth

A value is nested as deeply as the tree that it was written from: `depth_recursiveJson_lt` compares
a node with the nodes under its labels. A chain of operators is read without recursion and takes one
level for each of its terms, so no depth is enough for the trees of all texts. `sumText n` is a
declaration with a sum of `n + 1` ones, and `exists_reading_sumText` says that it is read, without a
syntax error, as a tree whose JSON is deeper than `n`.
-/

namespace NeutronLang

/-! ## Bytes of ASCII -/

namespace Text

/-- The bytes of a text in ASCII. -/
def asciiBytes (text : List Char) : List UInt8 := text.map fun c => UInt8.ofNat c.toNat

/-- `decodeUtf8` reads a byte of ASCII as a character by itself. -/
theorem decodeUtf8_asciiBytes {text : List Char} (h : ∀ c ∈ text, c.toNat < 128)
    (position : Nat) : decodeUtf8 position (asciiBytes text) = .ok text := by
  induction text generalizing position with
  | nil => rw [asciiBytes, List.map_nil, decodeUtf8]
  | cons c text ih =>
    obtain ⟨hc, htext⟩ := List.forall_mem_cons.mp h
    have hbyte : (UInt8.ofNat c.toNat).toNat = c.toNat := by
      rw [UInt8.toNat_ofNat']
      omega
    have hlead : Utf8Lead.ofByte? (UInt8.ofNat c.toNat) = some ⟨c.toNat, 0, 0x80, 0xbf⟩ := by
      unfold Utf8Lead.ofByte?
      simp only [hbyte, if_pos hc]
    have hrest := ih htext (position + 1)
    rw [asciiBytes] at hrest
    rw [asciiBytes, List.map_cons, decodeUtf8, hlead]
    simp only [continuation, Nat.add_zero, hrest, Char.ofNat_toNat]

/-- `unifyNewlines` leaves a text without carriage returns alone. -/
theorem unifyNewlines_eq {text : List Char} (h : '\r' ∉ text) : unifyNewlines text = text := by
  fun_induction unifyNewlines text with
  | case1 => rfl
  | case2 | case3 => exact absurd List.mem_cons_self h
  | case4 c rest _ _ ih => rw [ih fun hmem => h (List.mem_cons_of_mem _ hmem)]

end Text

/-! ## The depth of values -/

namespace Json

/-- `depthOfItems` is the maximum over the items. -/
theorem depth_le_depthOfItems {items : List Json} {item : Json} (h : item ∈ items) :
    item.depth ≤ depthOfItems items := by
  induction items with
  | nil => cases h
  | cons first items ih =>
    rw [depthOfItems]
    rcases List.mem_cons.mp h with rfl | h
    · exact Nat.le_max_left _ _
    · exact Nat.le_trans (ih h) (Nat.le_max_right _ _)

/-- `depthOfMembers` is the maximum over the values of the members. -/
theorem depth_le_depthOfMembers {members : List (String × Json)} {name : String} {value : Json}
    (h : (name, value) ∈ members) : value.depth ≤ depthOfMembers members := by
  induction members with
  | nil => cases h
  | cons first members ih =>
    obtain ⟨firstName, firstValue⟩ := first
    rw [depthOfMembers]
    rcases List.mem_cons.mp h with heq | h
    · cases heq
      exact Nat.le_max_left _ _
    · exact Nat.le_trans (ih h) (Nat.le_max_right _ _)

end Json

namespace Node

/-- `recursiveItems` writes nodes out one by one. -/
theorem recursiveItems_eq_map (nodes : List Node) :
    recursiveItems nodes = nodes.map recursiveJson := by
  induction nodes with
  | nil => rw [recursiveItems, List.map_nil]
  | cons node nodes ih => rw [recursiveItems, ih, List.map_cons]

/-- `recursiveMembers` has a member for each field. -/
theorem mem_recursiveMembers {fields : List (String × Field)} {label : String} {field : Field}
    (h : (label, field) ∈ fields) : (label, recursiveValue field) ∈ recursiveMembers fields := by
  induction fields with
  | nil => cases h
  | cons first fields ih =>
    obtain ⟨firstLabel, firstField⟩ := first
    rw [recursiveMembers]
    rcases List.mem_cons.mp h with heq | h
    · cases heq
      exact List.mem_cons_self
    · exact List.mem_cons_of_mem _ (ih h)

/-- `recursiveValue` of a field is no less deep than each of its nodes. -/
theorem depth_recursiveJson_le {field : Field} {child : Node} (h : child ∈ field.contents) :
    child.recursiveJson.depth ≤ (recursiveValue field).depth := by
  cases field with
  | node node =>
    obtain rfl := List.mem_singleton.mp h
    exact Nat.le_of_eq (by rw [recursiveValue])
  | nodes nodes =>
    have hmem : child ∈ nodes := h
    have hle := Json.depth_le_depthOfItems (List.mem_map_of_mem (f := recursiveJson) hmem)
    rw [recursiveValue, recursiveItems_eq_map, Json.depth]
    omega
  | text | value | errors => cases h

/-- `recursiveJson` writes a node deeper than each of the nodes under its labels. -/
theorem depth_recursiveJson_lt {node child : Node} (h : child ∈ node.contents) :
    child.recursiveJson.depth < node.recursiveJson.depth := by
  obtain ⟨⟨label, field⟩, hfield, hchild⟩ := List.mem_flatMap.mp h
  have hpresent : node.isAbsent = false := by
    cases node
    case absent => cases hfield
    all_goals rfl
  have hle : child.recursiveJson.depth ≤ (recursiveValue field).depth :=
    depth_recursiveJson_le hchild
  rw [recursiveJson_of_present hpresent, Json.depth]
  have hmember := Json.depth_le_depthOfMembers
    (List.mem_append_right [("type", .text node.kind), ("start", .int node.span.start),
      ("end", .int node.span.stop)] (mem_recursiveMembers hfield))
  omega

end Node

/-! ## Sums of ones -/

namespace Rendering

open Grammar

/-- The literal `1`. -/
def one : Node := .literal (.point 0) (.ofNumeral "1") "1" "number"

/-- The sum of `n + 1` ones, added from the left. -/
def sum : Nat → Node
  | 0 => one
  | n + 1 => .binary (.point 0) "+" (sum n) one

/-- The program that declares a variable as `sum n`. -/
def sumProgram (n : Nat) : Node :=
  .program (.point 0)
    [.variableDeclaration (.point 0) (some "int") (.identifier (.point 0) "x") (sum n)] []

/-- The words of `sumProgram n`. -/
def sumWords (n : Nat) : List Word :=
  [⟨.keyword, "var"⟩, ⟨.keyword, "int"⟩, ⟨.identifier, "x"⟩, ⟨.symbol, "="⟩, ⟨.number, "1"⟩] ++
    (List.replicate n [⟨.symbol, "+"⟩, ⟨.number, "1"⟩]).flatten ++ [⟨.symbol, ";"⟩]

/-- The text of `sumProgram n`, with one blank after each word. -/
def sumText (n : Nat) : List Char :=
  "var int x = 1 ".toList ++ (List.replicate n "+ 1 ".toList).flatten ++ "; ".toList

/-- `sum n` is an expression. -/
theorem isExpression_sum (n : Nat) : IsExpression (sum n) := by
  have hone : IsExpression one := .number ⟨'1', [], rfl, rfl, by simp⟩
  induction n with
  | zero => exact hone
  | succ n ih => exact .binary (by decide) (by decide) ih hone

/-- `sumProgram n` is a program. -/
theorem isProgram_sumProgram (n : Nat) : IsProgram (sumProgram n) := by
  refine .mk fun statement hstatement => ?_
  obtain rfl := List.mem_singleton.mp hstatement
  have hname : IsName "x" := ⟨by decide, 'x', [], rfl, by decide, by simp⟩
  exact .declaration (.mk (by decide) hname (.inr (isExpression_sum n)))

/-- `sum n` needs no parentheses where it is added to. -/
theorem places_sum (n : Nat) : places (sum n) =
    literalPlace "number" "1" ::
      (List.replicate n [operatorPlace "+", literalPlace "number" "1"]).flatten := by
  induction n with
  | zero => simp [sum, one]
  | succ n ih =>
    have hlevel : ¬level (sum n) < (precedence? "+").getD 0 := by
      cases n with
      | zero => decide
      | succ n => exact Nat.lt_irrefl _
    have hone : ¬level one < (precedence? "+").getD 0 + 1 := by decide
    rw [sum, places, operandPlaces, operandPlaces, if_neg hlevel, if_neg hone, ih]
    simp [one, List.replicate_succ']

/-- `Chosen` holds of words for their own places. -/
theorem chosen_places (words : List Word) :
    Chosen (words.map fun word => .word word.kind word.lexeme) words := by
  induction words with
  | nil => exact .nil
  | cons word words ih =>
    have hword : [word] ∈ (Place.word word.kind word.lexeme).choices := List.mem_cons_self
    exact .cons hword ih

/-- `sumWords n` are the words of `sumProgram n`. -/
theorem chosen_sumWords (n : Nat) : Chosen (places (sumProgram n)) (sumWords n) := by
  have hplaces : places (sumProgram n) =
      (sumWords n).map fun word => .word word.kind word.lexeme := by
    have hpresent : (sum n).isAbsent = false := by cases n <;> rfl
    have hplus : operatorPlace "+" = symbol "+" := rfl
    simp [sumProgram, sumWords, statementPlaces, places_sum, namePlace, literalPlace, initPlaces,
      endPlaces, hpresent, hplus]
  rw [hplaces]
  exact chosen_places (sumWords n)

/-- `Spaced` holds of words in a text with one blank after each of them. -/
theorem spaced_flatMap (words : List Word) :
    Spaced words (words.flatMap fun word => word.spelling ++ [' ']) := by
  induction words with
  | nil => exact .nil
  | cons word words ih =>
    rw [List.flatMap_cons, List.append_assoc]
    exact .word rfl ih

/-- `sumText n` consists of the words of `sumProgram n`. -/
theorem spaced_sumText (n : Nat) : Spaced (sumWords n) (sumText n) := by
  let spelled (words : List Word) : List Char := words.flatMap fun word => word.spelling ++ [' ']
  have hhead : spelled [⟨.keyword, "var"⟩, ⟨.keyword, "int"⟩, ⟨.identifier, "x"⟩, ⟨.symbol, "="⟩,
      ⟨.number, "1"⟩] = "var int x = 1 ".toList := by decide
  have hterm : spelled [⟨.symbol, "+"⟩, ⟨.number, "1"⟩] = "+ 1 ".toList := by decide
  have hterms : spelled (List.replicate n [⟨.symbol, "+"⟩, ⟨.number, "1"⟩]).flatten =
      (List.replicate n "+ 1 ".toList).flatten := by
    induction n with
    | zero => rfl
    | succ n ih =>
      rw [List.replicate_succ, List.replicate_succ, List.flatten_cons, List.flatten_cons, ← ih,
        ← hterm]
      exact List.flatMap_append
  have hlast : spelled [⟨.symbol, ";"⟩] = "; ".toList := by decide
  have htext : sumText n = spelled (sumWords n) := by
    unfold sumText sumWords
    rw [← hhead, ← hterms, ← hlast]
    simp only [spelled, List.flatMap_append]
  rw [htext]
  exact spaced_flatMap (sumWords n)

/-- `sumText n` is in ASCII, without carriage returns. -/
theorem ascii_sumText (n : Nat) : ∀ c ∈ sumText n, c.toNat < 128 ∧ c ≠ '\r' := by
  have hhead : ∀ c ∈ "var int x = 1 ".toList, c.toNat < 128 ∧ c ≠ '\r' := by simp
  have hterm : ∀ c ∈ "+ 1 ".toList, c.toNat < 128 ∧ c ≠ '\r' := by simp
  have hlast : ∀ c ∈ "; ".toList, c.toNat < 128 ∧ c ≠ '\r' := by simp
  have hterms : ∀ c ∈ (List.replicate n "+ 1 ".toList).flatten, c.toNat < 128 ∧ c ≠ '\r' := by
    intro c hc
    obtain ⟨term, hmem, hc⟩ := List.mem_flatten.mp hc
    rw [List.eq_of_mem_replicate hmem] at hc
    exact hterm c hc
  unfold sumText
  exact List.forall_mem_append.mpr ⟨List.forall_mem_append.mpr ⟨hhead, hterms⟩, hlast⟩

/-- A tree that is `sum n` but for spans is written out at least `n` levels deep. -/
theorem le_depth_of_sum {n : Nat} {tree : Node} (h : tree.withoutSpans = (sum n).withoutSpans) :
    n ≤ tree.recursiveJson.depth := by
  induction n generalizing tree with
  | zero => exact Nat.zero_le _
  | succ n ih =>
    obtain ⟨span, left, right, rfl, hleft⟩ : ∃ span left right,
        tree = .binary span "+" left right ∧ left.withoutSpans = (sum n).withoutSpans := by
      unfold Node.withoutSpans at h ⊢
      cases tree <;> simp_all [sum, Node.mapSpans]
    have hle : n ≤ left.recursiveJson.depth := ih hleft
    have hlt : left.recursiveJson.depth < (Node.binary span "+" left right).recursiveJson.depth :=
      Node.depth_recursiveJson_lt List.mem_cons_self
    omega

/-- A program that is `sumProgram n` but for spans is written out more than `n` levels deep. -/
theorem lt_depth_of_sumProgram {n : Nat} {program : Node}
    (h : program.withoutSpans = (sumProgram n).withoutSpans) : n < program.json.depth := by
  obtain ⟨span, declared, errors, rfl, hdeclared⟩ : ∃ span declared errors,
      program = .program span [declared] errors ∧ declared.withoutSpans =
        (Node.variableDeclaration (.point 0) (some "int") (.identifier (.point 0) "x")
          (sum n)).withoutSpans := by
    unfold Node.withoutSpans at h ⊢
    cases program <;> simp_all [sumProgram, Node.mapSpans, List.map_eq_cons_iff]
  obtain ⟨inner, name, init, rfl, hinit⟩ : ∃ inner name init,
      declared = .variableDeclaration inner (some "int") name init ∧
        init.withoutSpans = (sum n).withoutSpans := by
    unfold Node.withoutSpans at hdeclared ⊢
    cases declared <;> simp_all [Node.mapSpans]
  -- the sum is deep by itself, and it stands in the declaration, which stands in the program
  generalize hstatement : Node.variableDeclaration inner (some "int") name init = statement
  have hsum : n ≤ init.recursiveJson.depth := le_depth_of_sum hinit
  have hinner : init.recursiveJson.depth < statement.recursiveJson.depth :=
    Node.depth_recursiveJson_lt (hstatement ▸ List.mem_cons_of_mem _ List.mem_cons_self)
  have houter : statement.recursiveJson.depth <
      (Node.program span [statement] errors).recursiveJson.depth :=
    Node.depth_recursiveJson_lt List.mem_cons_self
  rw [Node.json_eq_recursiveJson]
  omega

/-- `sumText n` is read, without a syntax error, as a tree whose JSON is deeper than `n`. -/
theorem exists_reading_sumText (n : Nat) : ∃ reading, readDocument (sumText n) = .ok reading ∧
    reading.errors = [] ∧ n < reading.program.json.depth := by
  obtain ⟨reading, hreading, hprogram, herrors⟩ :=
    exists_reading_of_spaced (isProgram_sumProgram n) (chosen_sumWords n) (spaced_sumText n)
  exact ⟨reading, hreading, herrors, lt_depth_of_sumProgram hprogram⟩

end Rendering

end NeutronLang
