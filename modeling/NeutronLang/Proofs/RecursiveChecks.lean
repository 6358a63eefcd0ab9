import NeutronLang.Proofs.Judgements

/-!
# Checking without a list of operands

A check keeps the operands of a chain of operators on a list, so that a long chain does not nest.
What this comes to is said by `Check.recursive`: a check by recursion alone, in which an operator
has its left operand checked and then its right one. The two are the same step of a check on every
tree (`Check.tree_eq_recursive`), and so are the operands still to visit, whatever they are: the
list is read from its front, where an operator is replaced by its two operands in their order, so
what is still to do is always the check of its members one after the other.
-/

namespace NeutronLang.Check

/-! ## The check by recursion -/

mutual

/-- Checks a tree by recursion, as `tree` does with a list of operands: of an operator the left
operand and then the right one, of what has no rule of its own the children in order. -/
def recursive (node : Node) : Check Unit :=
  match node with
  | .binary _ _ left right | .logical _ _ left right => do
    recursive left
    recursive right
  | .variableDeclaration span none (.identifier _ name) init => do
    define name .any span.start
    recursive init
  | .variableDeclaration span (some type) (.identifier _ name) init => do
    declare name span.start (← declaredType type) init
  | .assignment _ _ (.identifier _ name) value => do
    judge name value
    recursive value
  | .variableDeclaration _ _ other _ | .assignment _ _ other _ => throw (.notName other)
  | .block _ nodes => inScope .block (recursiveAll nodes)
  | .forStatement span init test update body =>
    inScope .loop (recursiveAll (Node.forStatement span init test update body).children)
  | .functionDeclaration _ _ params body => inScope .function do
    defineParams params
    match body with
    | .block _ nodes => recursiveAll nodes
    | other => throw (.notBlock other)
  | .classDeclaration _ _ body =>
    match body with
    | .block _ nodes => inScope .classBody (recursiveAll nodes)
    | other => throw (.notBlock other)
  | node => recursiveAll node.children
termination_by (sizeOf node, 0)
decreasing_by
  all_goals apply Prod.Lex.left
  any_goals exact Node.sizes_children_lt _
  · simp +arith
  · simp +arith
  · simp +arith
  · simp +arith
  · simp +arith
  · simp +arith
  · exact Node.sizes_children_lt (.block _ nodes)
  · exact Nat.lt_trans (Node.sizes_children_lt (.block _ nodes)) (by simp +arith)
  · exact Nat.lt_trans (Node.sizes_children_lt (.block _ nodes)) (by simp +arith)

/-- Checks trees in order by recursion, each as `recursive` does. -/
def recursiveAll : List Node → Check Unit
  | [] => pure ()
  | node :: nodes => do
    recursive node
    recursiveAll nodes
termination_by nodes => (Node.sizes nodes, 1)
decreasing_by
  all_goals simp +arith [Prod.lex_def, Node.sizeOf_pos]
  omega

end

/-! ## The same check -/

/-- `recursive` does nothing for what is left out. -/
theorem recursive_absent : recursive .absent = pure () := by
  rw [recursive, Node.children, recursiveAll] <;> simp

/-- `recursiveAll` does the same with what is left out and without it. -/
theorem recursiveAll_present (nodes : List Node) :
    recursiveAll (Node.present nodes) = recursiveAll nodes := by
  induction nodes with
  | nil => rfl
  | cons node nodes ih =>
    by_cases h : node = .absent
    · -- it is kept by the one list and not by the other, where it is no step
      subst h
      rw [recursiveAll, recursive_absent, pure_bind, ← ih]
      rfl
    · have hpresent : Node.present (node :: nodes) = node :: Node.present nodes := by
        cases node
        case absent => exact absurd rfl h
        all_goals rfl
      rw [hpresent, recursiveAll, recursiveAll, ih]

/-- `recursiveAll` of a single tree is `recursive`. -/
theorem recursiveAll_singleton (node : Node) : recursiveAll [node] = recursive node := by
  rw [recursiveAll, recursiveAll, bind_pure_unit]

mutual

/-- `tree` checks with a list of operands as `recursive` does without. -/
theorem tree_eq_recursive : (node : Node) → tree node = recursive node
  | .absent | .identifier .. | .literal .. => by
    rw [tree, recursive, Node.children, recursiveAll] <;> simp
  | .binary _ _ left right | .logical _ _ left right => by
    -- the list of operands is visited like one of trees, and so in the order of the recursion
    rw [tree, recursive, operands_eq_trees, trees, trees, trees, bind_pure_unit,
      tree_eq_recursive left, tree_eq_recursive right]
  | .variableDeclaration span type name init => by
    cases name with
    | identifier _ name =>
      cases type with
      | none => rw [tree, recursive, tree_eq_recursive init]
      | some type => rw [tree, recursive]
    | _ => rw [tree, recursive] <;> simp
  | .assignment _ _ target value => by
    cases target with
    | identifier _ name => rw [tree, recursive, tree_eq_recursive value]
    | _ => rw [tree, recursive] <;> simp
  | .forStatement _ init test update body => by
    rw [tree, recursive, Node.children, recursiveAll_present, recursiveAll, recursiveAll,
      recursiveAll, recursiveAll_singleton, tree_eq_recursive init, tree_eq_recursive test,
      tree_eq_recursive update, tree_eq_recursive body]
  | .functionDeclaration _ _ params body => by
    cases body with
    | block _ nodes => rw [tree, recursive, trees_eq_recursiveAll nodes]
    | _ => rw [tree, recursive] <;> simp
  | .classDeclaration _ _ body => by
    cases body with
    | block _ nodes => rw [tree, recursive, trees_eq_recursiveAll nodes]
    | _ => rw [tree, recursive] <;> simp
  | .block _ nodes => by rw [tree, recursive, trees_eq_recursiveAll nodes]
  | .program _ nodes _ | .array _ nodes | .object _ nodes => by
    rw [tree, recursive, Node.children, trees_eq_recursiveAll nodes] <;> simp
  | .call _ callee arguments => by
    rw [tree, recursive, Node.children, recursiveAll, tree_eq_recursive callee,
      trees_eq_recursiveAll arguments] <;> simp
  | .ifStatement _ test consequent alternate => by
    rw [tree, recursive, Node.children, recursiveAll, recursiveAll, recursiveAll_present,
      recursiveAll_singleton, tree_eq_recursive test, tree_eq_recursive consequent,
      tree_eq_recursive alternate] <;> simp
  | .whileStatement _ first second | .member _ first second | .property _ first second => by
    rw [tree, recursive, Node.children, recursiveAll, recursiveAll_singleton,
      tree_eq_recursive first, tree_eq_recursive second] <;> simp
  | .returnStatement _ node => by
    rw [tree, recursive, Node.children, recursiveAll_present, recursiveAll_singleton,
      tree_eq_recursive node] <;> simp
  | .expressionStatement _ node | .unary _ _ node => by
    rw [tree, recursive, Node.children, recursiveAll_singleton, tree_eq_recursive node] <;> simp

/-- `trees` check with lists of operands as `recursiveAll` does without. -/
theorem trees_eq_recursiveAll : (nodes : List Node) → trees nodes = recursiveAll nodes
  | [] => by rw [trees, recursiveAll]
  | node :: nodes => by
    rw [trees, recursiveAll, tree_eq_recursive node, trees_eq_recursiveAll nodes]

end

/-- Keeping the operands of a chain on a list makes no difference. From any state of a check, flat
or nested, with any table and any mismatches noted before, checking a tree comes to what it comes to
by recursion alone (`Check.recursive`): the same end or the same obstacle, the same mismatches in
the same order, and the same table. The operands that are still to visit, whatever trees they are,
come to what they come to by recursion too. -/
theorem run_tree_eq_recursive (state : Checking) :
    (∀ node, (tree node).run state = (recursive node).run state) ∧
      ∀ pending, (operands pending).run state = (recursiveAll pending).run state := by
  constructor
  · intro node
    rw [tree_eq_recursive]
  · intro pending
    rw [operands_eq_trees, trees_eq_recursiveAll]

end NeutronLang.Check
