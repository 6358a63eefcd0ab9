import NeutronLang.Typing.Inference

/-!
# Types by the structure of expressions

What inference finds with its tasks and its memo is what plain recursion over the tree gives. All
it needs of a symbol table are the types of variables (`Node.typeUnder`), so tables that know the
same types infer the same.

A visit of a node puts its type into the memo and leaves the entries of the other numbers in use
alone (`Inference.Finds`). So the types of the two operands are both there when they are combined,
and the memo never lacks one.
-/

namespace NeutronLang

open Inference

/-- The type of an expression, by those (`typeOf?`) of the variables in it. -/
def Node.typeUnder (typeOf? : String → Option TypeTag) : Node → TypeTag
  | .binary _ operator left right | .logical _ operator left right =>
    if comparisonOperators.contains operator then .bool
    else if arithmeticOperators.contains operator then
      arithmeticType operator (left.typeUnder typeOf?) (right.typeUnder typeOf?)
    else .any
  | .unary _ operator operand => if operator == "not" then .bool else operand.typeUnder typeOf?
  | .literal _ _ raw type => literalType raw type
  | .array .. => .array
  | .object .. => .object
  | .identifier _ name => (typeOf? name).getD .any
  | _ => .any

namespace Inference

variable {table : SymbolTable} {node left right : Node} {type leftType rightType : TypeTag}
  {operator : String}

/-! ## Visits -/

/-- A visit of a node finds a type: whatever the tasks behind it, they are next, with the type in
the `Memo` by the number of the visit and the entries of all other numbers in use as they were. -/
def Finds (table : SymbolTable) (node : Node) (type : TypeTag) : Prop :=
  ∀ (next key : Nat) (memo : Memo), key < next → ∃ (free : Nat) (after : Memo),
    next ≤ free ∧ after.lookup key = some type ∧
      (∀ other < next, other ≠ key → after.lookup other = memo.lookup other) ∧
      ∀ tasks, walk table next (.visit key node :: tasks) memo = walk table free tasks after

/-- `lookup` of a number is not changed by an entry for another one. -/
theorem lookup_cons_of_ne {key other : Nat} (h : other ≠ key) (type : TypeTag) (memo : Memo) :
    ((key, type) :: memo).lookup other = memo.lookup other := by
  rw [List.lookup_cons, beq_false_of_ne h]

/-- `Finds` holds of a visit that enters its type at once. -/
theorem finds_of_walk
    (h : ∀ next key memo tasks, walk table next (.visit key node :: tasks) memo =
      walk table next tasks ((key, type) :: memo)) : Finds table node type := by
  intro next key memo _
  exact ⟨next, (key, type) :: memo, Nat.le_refl next, List.lookup_cons_self,
    fun other _ hother => lookup_cons_of_ne hother type memo, h next key memo⟩

/-- `walk` enters the type of an operation at once, unless that depends on its operands. -/
theorem walk_visit_operation (hnode : node.operation? = some (operator, left, right))
    (next key : Nat) (tasks : List Task) (memo : Memo) :
    walk table next (.visit key node :: tasks) memo =
      if comparisonOperators.contains operator then walk table next tasks ((key, .bool) :: memo)
      else if arithmeticOperators.contains operator then
        walk table (next + 2) (.visit next left :: .visit (next + 1) right ::
          .combine key operator next (next + 1) :: tasks) memo
      else walk table next tasks ((key, .any) :: memo) := by
  rw [walk]
  split
  · next h =>
    rw [hnode] at h
    cases h
  · next h =>
    rw [hnode] at h
    cases h
    rfl

/-- `Finds` holds of what is no operation, which is left to plain recursion. -/
theorem finds_of_operation?_none (hnone : node.operation? = none)
    (htype : type? table node = some type) : Finds table node type := by
  refine finds_of_walk fun next key memo tasks => ?_
  rw [walk]
  split
  · rw [htype]
  · next h =>
    rw [hnone] at h
    cases h

/-- `Finds` holds of a comparison, whose type does not depend on its operands. -/
theorem finds_comparison (hnode : node.operation? = some (operator, left, right))
    (hoperator : comparisonOperators.contains operator = true) : Finds table node .bool := by
  refine finds_of_walk fun next key memo tasks => ?_
  rw [walk_visit_operation hnode, if_pos hoperator]

/-- `Finds` holds of an operation that is not known, whose type does not depend on its operands. -/
theorem finds_unknown (hnode : node.operation? = some (operator, left, right))
    (hcomparison : ¬ comparisonOperators.contains operator = true)
    (harithmetic : ¬ arithmeticOperators.contains operator = true) : Finds table node .any := by
  refine finds_of_walk fun next key memo tasks => ?_
  rw [walk_visit_operation hnode, if_neg hcomparison, if_neg harithmetic]

/-- `Finds` holds of a computation, whose operands are visited one after the other and then
combined. -/
theorem finds_arithmetic (hnode : node.operation? = some (operator, left, right))
    (hcomparison : ¬ comparisonOperators.contains operator = true)
    (harithmetic : arithmeticOperators.contains operator = true)
    (hleft : Finds table left leftType) (hright : Finds table right rightType) :
    Finds table node (arithmeticType operator leftType rightType) := by
  intro next key memo hkey
  obtain ⟨middleFree, middle, hmiddleFree, hmiddle, hmiddleOther, hmiddleWalk⟩ :=
    hleft (next + 2) next memo (by omega)
  obtain ⟨free, last, hfree, hlast, hlastOther, hlastWalk⟩ :=
    hright middleFree (next + 1) middle (by omega)
  refine ⟨free, (key, arithmeticType operator leftType rightType) :: last, by omega,
    List.lookup_cons_self, fun other hother hne => ?_, fun tasks => ?_⟩
  · rw [lookup_cons_of_ne hne, hlastOther other (by omega) (by omega),
      hmiddleOther other (by omega) (by omega)]
  · -- The visit of the right operand has left the type of the left one in the memo.
    have hfirst : last.lookup next = some leftType := by
      rw [hlastOther next (by omega) (by omega), hmiddle]
    rw [walk_visit_operation hnode, if_neg hcomparison, if_pos harithmetic, hmiddleWalk, hlastWalk,
      walk, hfirst, hlast]

/-- `walk` of a chain ends with the type that its visit finds. -/
theorem Finds.walk_eq (h : Finds table node type) :
    (walk table 1 [.visit 0 node] []).bind (·.lookup 0) = some type := by
  obtain ⟨free, after, -, hafter, -, hwalk⟩ := h 1 0 [] Nat.one_pos
  rw [hwalk, walk, Option.bind_some, hafter]

/-- `Finds` holds of the type that `typeUnder` gives, and so `type?` finds it too. -/
theorem finds_typeUnder (table : SymbolTable) (node : Node) :
    Finds table node (node.typeUnder table.typeOf?) ∧
      type? table node = some (node.typeUnder table.typeOf?) := by
  -- An operation is found by its visit, and a visit of anything else by inference.
  have hoperation {node : Node} {type : TypeTag} (h : Finds table node type)
      (htype : type? table node = (walk table 1 [.visit 0 node] []).bind (·.lookup 0)) :
      Finds table node type ∧ type? table node = some type := ⟨h, htype.trans h.walk_eq⟩
  have hother {node : Node} {type : TypeTag} (hnone : node.operation? = none)
      (htype : type? table node = some type) :
      Finds table node type ∧ type? table node = some type :=
    ⟨finds_of_operation?_none hnone htype, htype⟩
  fun_induction Node.typeUnder table.typeOf? node with
  | case1 _ _ _ _ hcomparison | case4 _ _ _ _ hcomparison =>
    exact hoperation (finds_comparison rfl hcomparison) (by rw [type?])
  | case2 _ _ _ _ hcomparison harithmetic ihleft ihright
  | case5 _ _ _ _ hcomparison harithmetic ihleft ihright =>
    exact hoperation (finds_arithmetic rfl hcomparison harithmetic ihleft.1 ihright.1)
      (by rw [type?])
  | case3 _ _ _ _ hcomparison harithmetic | case6 _ _ _ _ hcomparison harithmetic =>
    exact hoperation (finds_unknown rfl hcomparison harithmetic) (by rw [type?])
  | case7 _ _ _ hnot => exact hother rfl (by rw [type?, if_pos hnot])
  | case8 _ _ _ hnot ih => exact hother rfl (by rw [type?, if_neg hnot, ih.2])
  | case9 | case10 | case11 | case12 => exact hother rfl (by rw [type?])
  | case13 node hbinary hlogical hunary hliteral harray hobject hidentifier =>
    refine hother ?_ (by rw [type?] <;> assumption)
    cases node with
    | binary span operator left right => exact absurd rfl (hbinary span operator left right)
    | logical span operator left right => exact absurd rfl (hlogical span operator left right)
    | _ => rfl

end Inference

/-- `infer` gives the type that `typeUnder` does. -/
theorem SymbolTable.infer_eq_typeUnder (table : SymbolTable) (node : Node) :
    table.infer node = node.typeUnder table.typeOf? := by
  rw [infer, (finds_typeUnder table node).2, Option.getD_some]

/-! ## The rules of types -/

/-- Whether the type of an expression is told by a rule of its kind. -/
def Node.hasRule : Node → Bool
  | .binary .. | .logical .. | .unary .. | .literal .. | .array .. | .object .. | .identifier .. =>
    true
  | _ => false

/-- The types of expressions, rule by rule, given those (`typeOf?`) of the variables that are
known. -/
inductive Node.HasType (typeOf? : String → Option TypeTag) : Node → TypeTag → Prop
  | comparison {node left right : Node} {operator : String}
      (hnode : node.operation? = some (operator, left, right))
      (hoperator : operator ∈ comparisonOperators) :
      HasType typeOf? node .bool
  | unknownOperator {node left right : Node} {operator : String}
      (hnode : node.operation? = some (operator, left, right))
      (hcomparison : operator ∉ comparisonOperators)
      (harithmetic : operator ∉ arithmeticOperators) :
      HasType typeOf? node .any
  | integers {node left right : Node} {operator : String}
      (hnode : node.operation? = some (operator, left, right))
      (hoperator : operator ∈ arithmeticOperators) (hdivision : operator ≠ "/")
      (hleft : HasType typeOf? left .int) (hright : HasType typeOf? right .int) :
      HasType typeOf? node .int
  | numbers {node left right : Node} {operator : String} {leftType rightType : TypeTag}
      (hnode : node.operation? = some (operator, left, right))
      (hoperator : operator ∈ arithmeticOperators)
      (hleft : HasType typeOf? left leftType) (hright : HasType typeOf? right rightType)
      (hwider : ¬ (leftType = .int ∧ rightType = .int ∧ operator ≠ "/")) :
      HasType typeOf? node .float
  | negation {span : Span} {operand : Node} : HasType typeOf? (.unary span "not" operand) .bool
  | unary {span : Span} {operator : String} {operand : Node} {type : TypeTag}
      (hoperator : operator ≠ "not") (hoperand : HasType typeOf? operand type) :
      HasType typeOf? (.unary span operator operand) type
  | known {span : Span} {name : String} {type : TypeTag} (hname : typeOf? name = some type) :
      HasType typeOf? (.identifier span name) type
  | unknown {span : Span} {name : String} (hname : typeOf? name = none) :
      HasType typeOf? (.identifier span name) .any
  | decimal {span : Span} {value : LiteralValue} {raw : String} (hpoint : '.' ∈ raw.toList) :
      HasType typeOf? (.literal span value raw "number") .float
  | integer {span : Span} {value : LiteralValue} {raw : String} (hpoint : '.' ∉ raw.toList) :
      HasType typeOf? (.literal span value raw "number") .int
  | string {span : Span} {value : LiteralValue} {raw : String} :
      HasType typeOf? (.literal span value raw "string") .string
  | boolean {span : Span} {value : LiteralValue} {raw : String} :
      HasType typeOf? (.literal span value raw "boolean") .bool
  | literal {span : Span} {value : LiteralValue} {raw type : String}
      (htype : type ∉ ["number", "string", "boolean"]) :
      HasType typeOf? (.literal span value raw type) .any
  | array {span : Span} {elements : List Node} : HasType typeOf? (.array span elements) .array
  | object {span : Span} {properties : List Node} :
      HasType typeOf? (.object span properties) .object
  | other {node : Node} (hnode : node.hasRule = false) : HasType typeOf? node .any

/-- `arithmeticType` tells types apart as the rules do. -/
theorem Inference.arithmeticType_eq (operator : String) (left right : TypeTag) :
    arithmeticType operator left right =
      if left = .int ∧ right = .int ∧ operator ≠ "/" then .int else .float := by
  simp [arithmeticType, and_assoc]

/-- `HasType` holds of an arithmetic operation if it does of its operands. -/
theorem Node.HasType.arithmetic {typeOf? : String → Option TypeTag} {node left right : Node}
    {operator : String} {leftType rightType : TypeTag}
    (hnode : node.operation? = some (operator, left, right))
    (hoperator : operator ∈ arithmeticOperators) (hleft : left.HasType typeOf? leftType)
    (hright : right.HasType typeOf? rightType) :
    node.HasType typeOf? (arithmeticType operator leftType rightType) := by
  rw [arithmeticType_eq]
  split
  · next h =>
    obtain ⟨rfl, rfl, hdivision⟩ := h
    exact .integers hnode hoperator hdivision hleft hright
  · next h => exact .numbers hnode hoperator hleft hright h

/-- `HasType` holds of the type of a literal. -/
theorem Node.hasType_literalType (typeOf? : String → Option TypeTag) (span : Span)
    (value : LiteralValue) (raw type : String) :
    (Node.literal span value raw type).HasType typeOf? (literalType raw type) := by
  unfold literalType
  split
  · split
    · next hpoint => exact .decimal (List.contains_iff_mem.mp hpoint)
    · next hpoint => exact .integer (mt List.contains_iff_mem.mpr hpoint)
  · exact .string
  · exact .boolean
  · next hnumber hstring hboolean => exact .literal (by simp_all)

/-- `HasType` holds of the type that `typeUnder` gives. -/
theorem Node.hasType_typeUnder (typeOf? : String → Option TypeTag) (node : Node) :
    node.HasType typeOf? (node.typeUnder typeOf?) := by
  fun_induction Node.typeUnder typeOf? node with
  | case1 _ _ _ _ hcomparison | case4 _ _ _ _ hcomparison =>
    exact .comparison rfl (List.contains_iff_mem.mp hcomparison)
  | case2 _ _ _ _ _ harithmetic ihleft ihright | case5 _ _ _ _ _ harithmetic ihleft ihright =>
    exact .arithmetic rfl (List.contains_iff_mem.mp harithmetic) ihleft ihright
  | case3 _ _ _ _ hcomparison harithmetic | case6 _ _ _ _ hcomparison harithmetic =>
    exact .unknownOperator rfl (mt List.contains_iff_mem.mpr hcomparison)
      (mt List.contains_iff_mem.mpr harithmetic)
  | case7 _ _ _ hnot =>
    cases beq_iff_eq.mp hnot
    exact .negation
  | case8 _ _ _ hnot ih => exact .unary (mt beq_iff_eq.mpr hnot) ih
  | case9 span value raw type => exact hasType_literalType typeOf? span value raw type
  | case10 => exact .array
  | case11 => exact .object
  | case12 _ name =>
    cases hname : typeOf? name with
    | none => exact .unknown hname
    | some type => exact .known hname
  | case13 node hbinary hlogical hunary hliteral harray hobject hidentifier =>
    -- of all other nodes nothing is said about their parts
    refine .other ?_
    cases node with
    | binary span operator left right => exact absurd rfl (hbinary span operator left right)
    | logical span operator left right => exact absurd rfl (hlogical span operator left right)
    | unary span operator operand => exact absurd rfl (hunary span operator operand)
    | literal span value raw type => exact absurd rfl (hliteral span value raw type)
    | array span elements => exact absurd rfl (harray span elements)
    | object span properties => exact absurd rfl (hobject span properties)
    | identifier span name => exact absurd rfl (hidentifier span name)
    | _ => rfl

/-- `typeUnder` of an operation goes by its operator and the types of its operands. -/
theorem Node.typeUnder_of_operation? (typeOf? : String → Option TypeTag) {node left right : Node}
    {operator : String} (h : node.operation? = some (operator, left, right)) :
    node.typeUnder typeOf? =
      if comparisonOperators.contains operator then .bool
      else if arithmeticOperators.contains operator then
        arithmeticType operator (left.typeUnder typeOf?) (right.typeUnder typeOf?)
      else .any := by
  cases node with
  | binary | logical =>
    cases h
    rw [typeUnder]
  | _ => cases h

/-- `HasType` gives an expression no other type than `typeUnder`. -/
theorem Node.HasType.eq_typeUnder {typeOf? : String → Option TypeTag} {node : Node} {type : TypeTag}
    (h : node.HasType typeOf? type) : type = node.typeUnder typeOf? := by
  -- No operator of computations is one of comparisons.
  have harithmetic {operator : String} (h : operator ∈ arithmeticOperators) :
      ¬ comparisonOperators.contains operator = true ∧
        arithmeticOperators.contains operator = true := by
    revert operator
    decide
  induction h with
  | comparison hnode hoperator =>
    rw [typeUnder_of_operation? typeOf? hnode, if_pos (List.contains_iff_mem.mpr hoperator)]
  | unknownOperator hnode hcomparison harithmetic =>
    rw [typeUnder_of_operation? typeOf? hnode, if_neg (mt List.contains_iff_mem.mp hcomparison),
      if_neg (mt List.contains_iff_mem.mp harithmetic)]
  | integers hnode hoperator hdivision _ _ ihleft ihright =>
    obtain ⟨hnot, hcontains⟩ := harithmetic hoperator
    rw [typeUnder_of_operation? typeOf? hnode, if_neg hnot, if_pos hcontains, ← ihleft, ← ihright,
      arithmeticType_eq, if_pos ⟨rfl, rfl, hdivision⟩]
  | numbers hnode hoperator _ _ hwider ihleft ihright =>
    obtain ⟨hnot, hcontains⟩ := harithmetic hoperator
    rw [typeUnder_of_operation? typeOf? hnode, if_neg hnot, if_pos hcontains, ← ihleft, ← ihright,
      arithmeticType_eq, if_neg hwider]
  | negation => rw [typeUnder, if_pos (beq_self_eq_true _)]
  | unary hoperator _ ih => rw [typeUnder, if_neg (mt beq_iff_eq.mp hoperator), ih]
  | known hname | unknown hname =>
    rw [typeUnder, hname]
    rfl
  | decimal hpoint => rw [typeUnder, literalType, if_pos (List.contains_iff_mem.mpr hpoint)]
  | integer hpoint => rw [typeUnder, literalType, if_neg (mt List.contains_iff_mem.mp hpoint)]
  | string | boolean | array | object => rfl
  | literal htype =>
    rw [typeUnder, literalType] <;> rintro rfl <;> exact htype (by simp)
  | @other node hnode => cases node <;> first | rfl | cases hnode

/-- `SymbolTable.type?` has an answer for every expression, and it is the only type that the rules
of `Node.HasType` give. -/
theorem SymbolTable.type?_exact (table : SymbolTable) (node : Node) :
    type? table node = some (table.infer node) ∧
      ∀ type, node.HasType table.typeOf? type ↔ type = table.infer node := by
  rw [infer_eq_typeUnder]
  refine ⟨(finds_typeUnder table node).2, fun type => ⟨Node.HasType.eq_typeUnder, ?_⟩⟩
  rintro rfl
  exact node.hasType_typeUnder table.typeOf?

end NeutronLang
