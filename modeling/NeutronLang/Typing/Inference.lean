import NeutronLang.Node.Basic
import NeutronLang.Typing.SymbolTable

/-!
# Type inference

The type of an expression under a symbol table, as far as it shows. A chain of operators nests one
level per term, so a chain is walked with a list of tasks instead of by recursion, and the types of
its operands are kept in a memo until they are combined. Each operand has a number of its own, by
which the memo has its type.
-/

namespace NeutronLang

/-- The operator and the operands of an operation with two of them. -/
def Node.operation? : Node → Option (String × Node × Node)
  | .binary _ operator left right | .logical _ operator left right => some (operator, left, right)
  | _ => none

/-- The operands that `operation?` gives are parts of the operation. -/
theorem Node.sizeOf_operation? {node left right : Node} {operator : String}
    (h : node.operation? = some (operator, left, right)) :
    sizeOf left + sizeOf right + 2 ≤ sizeOf node := by
  cases node with
  | binary span operator left right | logical span operator left right =>
    cases h
    cases span
    simp +arith
  | _ => cases h

namespace Inference

/-- The operators whose value is a truth value, whatever their operands. -/
def comparisonOperators : List String := ["==", "!=", "<", "<=", ">", ">=", "and", "or"]

/-- The operators that compute with numbers. -/
def arithmeticOperators : List String := ["+", "-", "*", "/", "%"]

/-- The type of an arithmetic operation: `int` only from two of them, and never by division. -/
def arithmeticType (operator : String) (left right : TypeTag) : TypeTag :=
  if left == .int && right == .int && operator != "/" then .int else .float

/-- The type of a literal, by its kind and, for a number, by its text. -/
def literalType (raw type : String) : TypeTag :=
  match type with
  | "number" => if raw.toList.contains '.' then .float else .int
  | "string" => .string
  | "boolean" => .bool
  | _ => .any

/-- The types found so far, by the numbers of their nodes; the latest entry of a number counts, as
`List.lookup` has it. -/
abbrev Memo := List (Nat × TypeTag)

/-- Something still to do on the way to a type, on the stack of `SymbolTable.walk`. -/
inductive Task where
  /-- Find the type of a node. -/
  | visit (key : Nat) (node : Node)
  /-- Combine the types of the two operands of a node. -/
  | combine (key : Nat) (operator : String) (left right : Nat)

/-- What a task costs at most, in steps of `SymbolTable.walk`: an operation is visited and then
combined, and what is none is left to plain recursion. -/
noncomputable def Task.cost : Task → Nat
  | visit _ node => if node.operation?.isSome then 2 * sizeOf node else 2 * sizeOf node + 1
  | combine .. => 1

/-- The cost of all `tasks`, which falls with each step of `SymbolTable.walk`. -/
noncomputable def totalCost : List Task → Nat
  | [] => 0
  | task :: tasks => task.cost + totalCost tasks

/-- `cost` of a visit is no more than twice the size of its node and one. -/
theorem Task.cost_visit_le (key : Nat) (node : Node) :
    (Task.visit key node).cost ≤ 2 * sizeOf node + 1 := by
  simp only [cost]
  split <;> omega

mutual

/-- The type of a node. What has no type of its own is of type `any`. There is no answer if the memo
of a chain lacks a type that it is asked for, which never happens. -/
def type? (table : SymbolTable) : Node → Option TypeTag
  | .literal _ _ raw type => some (literalType raw type)
  | .array .. => some .array
  | .object .. => some .object
  | .identifier _ name => some ((table.typeOf? name).getD .any)
  | .binary span operator left right =>
    (walk table 1 [.visit 0 (.binary span operator left right)] []).bind (·.lookup 0)
  | .logical span operator left right =>
    (walk table 1 [.visit 0 (.logical span operator left right)] []).bind (·.lookup 0)
  | .unary _ operator operand => if operator == "not" then some .bool else type? table operand
  | _ => some .any
termination_by node => (2 * sizeOf node, 1)
decreasing_by
  all_goals simp +arith [Prod.lex_def, totalCost, Task.cost, Node.operation?]

/--
Carries out tasks, first to last, with a memo. Numbers from `next` on are free. The answer is the
memo at the end.
-/
def walk (table : SymbolTable) (next : Nat) : (tasks : List Task) → (memo : Memo) → Option Memo
  | [], memo => some memo
  | .combine key operator left right :: tasks, memo =>
    match memo.lookup left, memo.lookup right with
    | some leftType, some rightType =>
      walk table next tasks ((key, arithmeticType operator leftType rightType) :: memo)
    | _, _ => none
  | .visit key node :: tasks, memo =>
    match hoperation : node.operation? with
    | none =>
      match type? table node with
      | some type => walk table next tasks ((key, type) :: memo)
      | none => none
    | some (operator, left, right) =>
      if comparisonOperators.contains operator then walk table next tasks ((key, .bool) :: memo)
      else if arithmeticOperators.contains operator then
        walk table (next + 2) (.visit next left :: .visit (next + 1) right ::
          .combine key operator next (next + 1) :: tasks) memo
      else walk table next tasks ((key, .any) :: memo)
termination_by tasks => (totalCost tasks, 0)
decreasing_by
  case _ => simp [Prod.lex_def, totalCost, Task.cost]
  case _ => simp +arith [Prod.lex_def, totalCost, Task.cost, hoperation]
  case _ => simp [Prod.lex_def, totalCost, Task.cost, hoperation]
  case _ => simp [Prod.lex_def, totalCost, Task.cost, hoperation, Node.sizeOf_pos]
  case _ =>
    have hsize := Node.sizeOf_operation? hoperation
    have hleft := Task.cost_visit_le next left
    have hright := Task.cost_visit_le (next + 1) right
    have hcost : (Task.visit key node).cost = 2 * sizeOf node := by simp [Task.cost, hoperation]
    simp only [Prod.lex_def, totalCost, Task.cost.eq_2, hcost]
    omega
  case _ => simp [Prod.lex_def, totalCost, Task.cost, hoperation, Node.sizeOf_pos]

end

end Inference

/-- The type of an expression under a symbol table, as `type?` finds it. -/
def SymbolTable.infer (table : SymbolTable) (node : Node) : TypeTag :=
  (Inference.type? table node).getD .any

end NeutronLang
