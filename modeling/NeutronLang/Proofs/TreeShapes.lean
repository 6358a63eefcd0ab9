import NeutronLang.Proofs.Documents
import NeutronLang.Proofs.Judgements

/-!
# The shapes of trees

The type of syntax trees admits much that no document is read as. `Node.isShaped` says of a node
which nodes may stand at each of its places, which operators and types it may carry, and what an
expression statement starts with; a tree is well shaped if all its nodes are. Every tree that is
read is (`readDocument_wellShaped`), whatever errors the document has, and no well-shaped tree stops
a check (`Check.finishes_of_wellShaped`). So the two meet at a condition on single nodes, which
mentions neither the grammar nor the checker, and which can be evaluated.
-/

namespace NeutronLang

open Grammar Rendering

namespace Node

/-! ## Kinds -/

/-- Whether a node is of one of the nine kinds of statements. -/
def isStatementKind : Node → Bool
  | variableDeclaration .. | ifStatement .. | whileStatement .. | forStatement ..
  | functionDeclaration .. | classDeclaration .. | returnStatement .. | expressionStatement ..
  | assignment .. => true
  | _ => false

/-- Whether a node is of one of the kinds of expressions; an assignment is none of these. -/
def isExpressionKind : Node → Bool
  | binary .. | logical .. | unary .. | call .. | member .. | array .. | object .. | identifier ..
  | literal .. => true
  | _ => false

/-- Whether a node is of a kind that can be called and can have members. -/
def isPathKind : Node → Bool
  | identifier .. | call .. | member .. => true
  | _ => false

/-- Whether a node is a name. -/
def isIdentifier : Node → Bool
  | identifier .. => true
  | _ => false

/-- Whether a node is a block. -/
def isBlock : Node → Bool
  | block .. => true
  | _ => false

/-- Whether a node is a conditional. -/
def isConditional : Node → Bool
  | ifStatement .. => true
  | _ => false

/-- Whether a node is a declaration. -/
def isDeclaration : Node → Bool
  | variableDeclaration .. => true
  | _ => false

/-- Whether a node is an assignment. -/
def isAssignment : Node → Bool
  | assignment .. => true
  | _ => false

/-- Whether a node is a property. -/
def isProperty : Node → Bool
  | property .. => true
  | _ => false

/-- Whether a node is a string. -/
def isString : Node → Bool
  | literal _ (.text _) _ type => type == "string"
  | _ => false

/-- Whether a node is a name that is not reserved. -/
def isFreeName : Node → Bool
  | identifier _ name => !keywords.contains name
  | _ => false

/-- What is written first of an expression: its first operand, its callee or its owner, as far as
there is one. -/
def leftmost : Node → Node
  | binary _ _ left _ | logical _ _ left _ => left.leftmost
  | call _ callee _ => callee.leftmost
  | member _ owner _ => owner.leftmost
  | node => node

/-! ## Shapes -/

/-- The binary operators that are not logical. -/
def binaryOperators : List String :=
  ["==", "!=", "<", "<=", ">", ">=", "+", "-", "*", "/", "%"]

/-- Whether an optional node is left out or satisfies `condition`. -/
def isAbsentOr (condition : Node → Bool) (node : Node) : Bool := node.isAbsent || condition node

/-- Whether a node holds at each of its places what may stand there, and carries what it may, such
as one of the `binaryOperators`. -/
def isShaped : Node → Bool
  | absent => false
  | program _ statements _ | block _ statements => statements.all isStatementKind
  | variableDeclaration _ type name init =>
    type.all typeKeywords.contains && name.isFreeName && init.isAbsentOr isExpressionKind
  | ifStatement _ test consequent alternate =>
    test.isExpressionKind && consequent.isBlock &&
      alternate.isAbsentOr fun node => node.isBlock || node.isConditional
  | whileStatement _ test body => test.isExpressionKind && body.isBlock
  | forStatement _ init test update body =>
    (init.isAbsentOr fun node =>
      node.isDeclaration || node.isAssignment || node.isExpressionKind) &&
    test.isAbsentOr isExpressionKind &&
    (update.isAbsentOr fun node => node.isAssignment || node.isExpressionKind) && body.isBlock
  | functionDeclaration _ name params body =>
    name.isFreeName && params.all isFreeName && body.isBlock
  | classDeclaration _ name body => name.isFreeName && body.isBlock
  | returnStatement _ argument => argument.isAbsentOr isExpressionKind
  | expressionStatement _ expression =>
    expression.isExpressionKind && expression.leftmost.isFreeName
  | assignment _ operator target value =>
    operator == "=" && target.isIdentifier && value.isExpressionKind
  | binary _ operator left right =>
    binaryOperators.contains operator && left.isExpressionKind && right.isExpressionKind
  | logical _ operator left right =>
    logicalOperators.contains operator && left.isExpressionKind && right.isExpressionKind
  | unary _ operator operand => prefixOperators.contains operator && operand.isExpressionKind
  | call _ callee arguments => callee.isPathKind && arguments.all isExpressionKind
  | member _ owner name => owner.isPathKind && name.isFreeName
  | array _ elements => elements.all isExpressionKind
  | object _ properties => properties.all isProperty
  | property _ key value => key.isString && value.isExpressionKind
  | identifier _ name => !keywords.contains name || name == "this"
  | literal _ _ _ type => ["number", "string", "boolean", "nil"].contains type

/-- A tree is well shaped if all its `subtrees` are. -/
def WellShaped (tree : Node) : Prop := ∀ node ∈ tree.subtrees, node.isShaped = true

/-- A tree is `WellShaped` if its root `isShaped` and its children are well shaped. -/
theorem wellShaped_iff {tree : Node} :
    tree.WellShaped ↔ tree.isShaped = true ∧ ∀ child ∈ tree.children, child.WellShaped :=
  forall_subtrees_iff

/-- The `subtrees` of one of the subtrees of a tree are subtrees of it. -/
theorem subtrees_subset {tree inner node : Node} (hinner : inner ∈ tree.subtrees)
    (hnode : node ∈ inner.subtrees) : node ∈ tree.subtrees := by
  induction tree using Node.subtrees.induct with
  | case1 tree ih =>
    rw [subtrees_eq, List.mem_cons] at hinner
    rcases hinner with rfl | hinner
    · exact hnode
    · obtain ⟨child, hchild, hinner⟩ := List.mem_flatMap.mp hinner
      rw [subtrees_eq]
      exact List.mem_cons_of_mem _ (List.mem_flatMap.mpr ⟨child, hchild, ih ⟨child, hchild⟩ hinner⟩)

/-- Each of the `subtrees` of a `WellShaped` tree is well shaped. -/
theorem WellShaped.of_mem {tree inner : Node} (h : tree.WellShaped)
    (hinner : inner ∈ tree.subtrees) : inner.WellShaped :=
  fun node hnode => h node (subtrees_subset hinner hnode)

/-- `isExpressionKind` holds of what can be called. -/
theorem isExpressionKind_of_isPathKind {node : Node} (h : node.isPathKind = true) :
    node.isExpressionKind = true := by
  cases node with
  | identifier | call | member => rfl
  | _ => cases h

/-- `isExpressionKind` holds of a name that is not reserved. -/
theorem isExpressionKind_of_isFreeName {node : Node} (h : node.isFreeName = true) :
    node.isExpressionKind = true := by
  cases node with
  | identifier => rfl
  | _ => cases h

/-- `isExpressionKind` holds of a string. -/
theorem isExpressionKind_of_isString {node : Node} (h : node.isString = true) :
    node.isExpressionKind = true := by
  cases node with
  | literal => rfl
  | _ => cases h

/-! ## Trees that are read -/

variable {node : Node}

/-- `isFreeName` holds of a name in the sense of `IsName`. -/
theorem isFreeName_of_isName {span : Span} {name : String} (h : IsName name) :
    (identifier span name).isFreeName = true := by
  simp [isFreeName, h.1]

/-- `isPathKind` holds of nodes that bind as tightly as names do. -/
theorem isPathKind_of_level (h : level node = pathLevel) : node.isPathKind = true := by
  have hbinary (operator : String) : (precedence? operator).getD 0 ≠ pathLevel := by
    cases hprecedence : precedence? operator with
    | none => decide
    | some found =>
      have hbound := (precedence_bounds hprecedence).2
      exact Nat.ne_of_lt (Nat.lt_trans hbound (by decide))
  cases node with
  | identifier | call | member => rfl
  | binary _ operator | logical _ operator => exact absurd h (hbinary operator)
  | _ => cases h

/-- A text that has one of the levels of binary operators and is not logical is one of the
`binaryOperators`. -/
theorem mem_binaryOperators {operator : String} (h : (precedence? operator).isSome)
    (hlogical : operator ∉ logicalOperators) : operator ∈ binaryOperators := by
  have hall : ∀ entry ∈ precedences, entry.1 ∈ logicalOperators ∨ entry.1 ∈ binaryOperators := by
    decide
  obtain ⟨found, hfound⟩ := Option.isSome_iff_exists.mp h
  obtain ⟨before, after, hentries, -⟩ := List.lookup_eq_some_iff.mp hfound
  exact (hall (operator, found) (by rw [hentries]; simp)).resolve_left hlogical

/-- `WellShaped` holds of a name that may be written, since it has no children. -/
theorem wellShaped_identifier {span : Span} {name : String} (h : IsName name ∨ name = "this") :
    (identifier span name).WellShaped := by
  refine wellShaped_iff.mpr ⟨?_, by simp [children]⟩
  rcases h with h | rfl
  · simp [isShaped, h.1]
  · rfl

/-- `WellShaped` holds of expressions. -/
theorem wellShaped_of_isExpression (h : IsExpression node) :
    node.isExpressionKind = true ∧ node.WellShaped := by
  induction h with
  | number | string | true | false | nil =>
    exact ⟨rfl, wellShaped_iff.mpr ⟨rfl, by simp [children]⟩⟩
  | name hname => exact ⟨rfl, wellShaped_identifier hname⟩
  | binary hprecedence hlogical _ _ ihleft ihright =>
    have hoperator := mem_binaryOperators hprecedence hlogical
    exact ⟨rfl, wellShaped_iff.mpr
      ⟨by simp [isShaped, hoperator, ihleft.1, ihright.1], by simp [children, ihleft.2, ihright.2]⟩⟩
  | logical hoperator _ _ ihleft ihright =>
    exact ⟨rfl, wellShaped_iff.mpr
      ⟨by simp [isShaped, hoperator, ihleft.1, ihright.1], by simp [children, ihleft.2, ihright.2]⟩⟩
  | unary hoperator _ ih =>
    exact ⟨rfl, wellShaped_iff.mpr ⟨by simp [isShaped, hoperator, ih.1], by simp [children, ih.2]⟩⟩
  | call hlevel _ _ ihcallee ih =>
    refine ⟨rfl, wellShaped_iff.mpr ⟨?_, List.forall_mem_cons.mpr ⟨ihcallee.2, ?_⟩⟩⟩
    · simp only [isShaped, isPathKind_of_level hlevel, Bool.true_and, List.all_eq_true]
      exact fun argument hargument => (ih argument hargument).1
    · exact fun argument hargument => (ih argument hargument).2
  | member hlevel _ hname ih =>
    exact ⟨rfl, wellShaped_iff.mpr
      ⟨by simp [isShaped, isPathKind_of_level hlevel, isFreeName_of_isName hname],
        by simp [children, ih.2, wellShaped_identifier (.inl hname)]⟩⟩
  | array _ ih =>
    refine ⟨rfl, wellShaped_iff.mpr ⟨?_, fun element helement => (ih element helement).2⟩⟩
    exact List.all_eq_true.mpr fun element helement => (ih element helement).1
  | object _ _ ih =>
    refine ⟨rfl, wellShaped_iff.mpr ⟨?_, fun property hproperty => ?_⟩⟩
    · simp [isShaped, Entry.node, isProperty]
    · -- a property is not an expression, so its parts are looked at here
      obtain ⟨entry, hentry, rfl⟩ := List.mem_map.mp hproperty
      obtain ⟨hkind, hvalue⟩ := ih entry hentry
      have hkey : (literal entry.keySpan (.ofQuoted entry.key) entry.key "string").WellShaped :=
        wellShaped_iff.mpr ⟨rfl, by simp [children]⟩
      have hshaped : entry.node.isShaped = true := by
        simp [Entry.node, isShaped, isString, LiteralValue.ofQuoted, hkind]
      exact wellShaped_iff.mpr ⟨hshaped, by simp [Entry.node, children, hkey, hvalue]⟩

/-- `StartsWithName` is decided before a place that is no name. -/
theorem startsWithName_of_append {before rest : List Place} {place : Place}
    (h : StartsWithName (before ++ place :: rest))
    (hplace : ∀ name, place ≠ .word .identifier name) : StartsWithName before := by
  obtain ⟨name, tail, hplaces⟩ := h
  cases before with
  | nil => exact absurd (List.cons.inj hplaces).1 (hplace name)
  | cons first before =>
    obtain ⟨rfl, -⟩ := List.cons.inj hplaces
    exact ⟨name, before, rfl⟩

/-- `StartsWithName` holds of an operand only without parentheses. -/
theorem startsWithName_of_operandPlaces {least : Nat} {operand : Node} {inner : List Place}
    (h : StartsWithName (operandPlaces least operand inner)) : StartsWithName inner := by
  unfold operandPlaces at h
  split at h
  · obtain ⟨name, tail, hplaces⟩ := h
    cases hplaces
  · exact h

/-- An expression that `StartsWithName` has the name as its `leftmost` node. -/
theorem isFreeName_leftmost (h : IsExpression node) (hstarts : StartsWithName (places node)) :
    node.leftmost.isFreeName = true := by
  -- Nothing that opens an expression with another word starts with a name.
  have hnone {kind : TokenKind} {lexeme : String} {rest : List Place} (hkind : kind ≠ .identifier) :
      ¬ StartsWithName (.word kind lexeme :: rest) := by
    rintro ⟨name, tail, hplaces⟩
    cases hplaces
    exact hkind rfl
  induction h with
  | number | string | true | false | nil => exact absurd hstarts (hnone (by decide))
  | name hname =>
    rcases hname with hname | rfl
    · exact isFreeName_of_isName hname
    · exact absurd hstarts (hnone (by decide))
  | @binary _ operator _ _ _ _ _ _ ih _ =>
    refine ih (startsWithName_of_operandPlaces (startsWithName_of_append hstarts ?_))
    unfold operatorPlace
    split <;> simp
  | logical _ _ _ ih _ =>
    exact ih (startsWithName_of_operandPlaces (startsWithName_of_append hstarts (by simp)))
  | @unary _ operator _ _ _ _ =>
    refine absurd hstarts (hnone ?_)
    split <;> decide
  | call _ _ _ ih _ | member _ _ _ ih => exact ih (startsWithName_of_append hstarts (by simp))
  | array | object => exact absurd hstarts (hnone (by decide))

/-- Well-shaped nodes of a kind (`condition`), unless they are left out. -/
def OptionallyShaped (condition : Node → Bool) (node : Node) : Prop :=
  node.isAbsentOr condition = true ∧ ∀ child ∈ present [node], child.WellShaped

/-- `OptionallyShaped` holds of a node that is left out. -/
theorem optionallyShaped_absent {condition : Node → Bool} : OptionallyShaped condition .absent :=
  ⟨rfl, by simp [present, isAbsent]⟩

/-- `OptionallyShaped` holds of a well-shaped node of the kind. -/
theorem optionallyShaped_of_wellShaped {condition : Node → Bool} (hkind : condition node = true)
    (h : node.WellShaped) : OptionallyShaped condition node :=
  ⟨by rw [isAbsentOr, hkind, Bool.or_true],
    fun child hchild => List.mem_singleton.mp (List.mem_of_mem_filter hchild) ▸ h⟩

/-- `OptionallyShaped` holds of an expression that may be left out, where expressions are of the
kind. -/
theorem optionallyShaped_of_isExpression {condition : Node → Bool}
    (hcondition : ∀ node, node.isExpressionKind = true → condition node = true)
    (h : node = .absent ∨ IsExpression node) : OptionallyShaped condition node := by
  rcases h with rfl | h
  · exact optionallyShaped_absent
  · obtain ⟨hkind, hshaped⟩ := wellShaped_of_isExpression h
    exact optionallyShaped_of_wellShaped (hcondition node hkind) hshaped

/-- `WellShaped` holds of declarations. -/
theorem wellShaped_of_isDeclaration (h : IsDeclaration node) :
    node.isDeclaration = true ∧ node.WellShaped := by
  cases h with
  | @mk _ _ type _ _ htype hname hinit =>
    obtain ⟨hinit, hchildren⟩ := optionallyShaped_of_isExpression (fun _ hkind => hkind) hinit
    have htype : type.all typeKeywords.contains = true := by
      rw [Option.all_eq_true]
      exact fun name hname => List.contains_iff_mem.mpr (htype name hname)
    refine ⟨rfl, wellShaped_iff.mpr ⟨?_, ?_⟩⟩
    · simp [isShaped, htype, hinit, isFreeName_of_isName hname]
    · exact List.forall_mem_cons.mpr ⟨wellShaped_identifier (.inl hname), hchildren⟩

/-- `WellShaped` holds of assignments. -/
theorem wellShaped_of_isAssignment (h : IsAssignment node) :
    node.isAssignment = true ∧ node.WellShaped := by
  cases h with
  | mk hname hvalue =>
    obtain ⟨hkind, hvalue⟩ := wellShaped_of_isExpression hvalue
    exact ⟨rfl, wellShaped_iff.mpr ⟨by simp [isShaped, isIdentifier, hkind],
      by simp [children, wellShaped_identifier hname, hvalue]⟩⟩

/-- `OptionallyShaped` holds of what a loop can start with. -/
theorem optionallyShaped_of_isLoopInit
    (h : node = .absent ∨ IsDeclaration node ∨ IsExpression node ∨ IsAssignment node) :
    OptionallyShaped (fun node => node.isDeclaration || node.isAssignment || node.isExpressionKind)
      node := by
  rcases h with rfl | h | h | h
  · exact optionallyShaped_absent
  · obtain ⟨hkind, hshaped⟩ := wellShaped_of_isDeclaration h
    exact optionallyShaped_of_wellShaped (by simp [hkind]) hshaped
  · exact optionallyShaped_of_isExpression (by simp +contextual) (.inr h)
  · obtain ⟨hkind, hshaped⟩ := wellShaped_of_isAssignment h
    exact optionallyShaped_of_wellShaped (by simp [hkind]) hshaped

/-- `OptionallyShaped` holds of what the last clause of a loop can be. -/
theorem optionallyShaped_of_isLoopUpdate
    (h : node = .absent ∨ IsExpression node ∨ IsAssignment node) :
    OptionallyShaped (fun node => node.isAssignment || node.isExpressionKind) node := by
  rcases h with rfl | h | h
  · exact optionallyShaped_absent
  · exact optionallyShaped_of_isExpression (by simp +contextual) (.inr h)
  · obtain ⟨hkind, hshaped⟩ := wellShaped_of_isAssignment h
    exact optionallyShaped_of_wellShaped (by simp [hkind]) hshaped

/-- `WellShaped` holds of a block of well-shaped statements. -/
theorem wellShaped_block {span : Span} {body : List Node}
    (h : ∀ statement ∈ body, statement.isStatementKind = true ∧ statement.WellShaped) :
    (block span body).WellShaped :=
  wellShaped_iff.mpr ⟨List.all_eq_true.mpr fun statement hstatement => (h statement hstatement).1,
    fun statement hstatement => (h statement hstatement).2⟩

/-- `WellShaped` holds of statements. -/
theorem wellShaped_of_isStatement (h : IsStatement node) :
    node.isStatementKind = true ∧ node.WellShaped := by
  induction h with
  | declaration h =>
    refine ⟨?_, (wellShaped_of_isDeclaration h).2⟩
    cases h
    rfl
  | assignment h _ =>
    refine ⟨?_, (wellShaped_of_isAssignment h).2⟩
    cases h
    rfl
  | expression h hstarts =>
    obtain ⟨hkind, hshaped⟩ := wellShaped_of_isExpression h
    exact ⟨rfl, wellShaped_iff.mpr
      ⟨by simp [isShaped, hkind, isFreeName_leftmost h hstarts], by simp [children, hshaped]⟩⟩
  | returns h => exact ⟨rfl, wellShaped_iff.mpr (optionallyShaped_of_isExpression (by simp) h)⟩
  | conditional htest _ ih =>
    obtain ⟨hkind, htest⟩ := wellShaped_of_isExpression htest
    exact ⟨rfl, wellShaped_iff.mpr ⟨by simp [isShaped, hkind, isBlock, isAbsentOr, isAbsent],
      by simp [children, present, isAbsent, htest, wellShaped_block ih]⟩⟩
  | conditionalElse htest _ _ ih ihother =>
    obtain ⟨hkind, htest⟩ := wellShaped_of_isExpression htest
    exact ⟨rfl, wellShaped_iff.mpr ⟨by simp [isShaped, hkind, isBlock, isAbsentOr],
      by simp [children, present, isAbsent, htest, wellShaped_block ih, wellShaped_block ihother]⟩⟩
  | conditionalChain htest _ _ ih ihnext =>
    obtain ⟨hkind, htest⟩ := wellShaped_of_isExpression htest
    exact ⟨rfl, wellShaped_iff.mpr ⟨by simp [isShaped, hkind, isBlock, isConditional, isAbsentOr],
      by simp [children, present, isAbsent, htest, wellShaped_block ih, ihnext.2]⟩⟩
  | loop htest _ ih =>
    obtain ⟨hkind, htest⟩ := wellShaped_of_isExpression htest
    exact ⟨rfl, wellShaped_iff.mpr ⟨by simp [isShaped, hkind, isBlock],
      by simp [children, htest, wellShaped_block ih]⟩⟩
  | @forLoop _ bodySpan init test update body hinit htest hupdate _ ih =>
    obtain ⟨hinit, hinitShaped⟩ := optionallyShaped_of_isLoopInit hinit
    obtain ⟨htest, htestShaped⟩ := optionallyShaped_of_isExpression (fun _ hkind => hkind) htest
    obtain ⟨hupdate, hupdateShaped⟩ := optionallyShaped_of_isLoopUpdate hupdate
    refine ⟨rfl, wellShaped_iff.mpr ⟨?_, ?_⟩⟩
    · simp [isShaped, hinit, htest, hupdate, isBlock]
    · -- each clause may be missing, so their shapes are put together before any is looked at
      show ∀ child ∈ present ([init] ++ ([test] ++ ([update] ++ [block bodySpan body]))), _
      simp only [present_append, List.forall_mem_append]
      refine ⟨hinitShaped, htestShaped, hupdateShaped, fun child hchild => ?_⟩
      rw [List.mem_singleton.mp (List.mem_of_mem_filter hchild)]
      exact wellShaped_block ih
  | @function _ _ _ _ params _ hname hparams _ ih =>
    refine ⟨rfl, wellShaped_iff.mpr ⟨?_, ?_⟩⟩
    · have hparams : ∀ param ∈ params, param.2 ∉ keywords := fun param hparam =>
        (hparams param hparam).1
      simpa [isShaped, isBlock, isFreeName, hname.1] using hparams
    · simp only [children, List.cons_append, List.forall_mem_cons, List.forall_mem_append,
        List.forall_mem_map, List.not_mem_nil, false_implies, implies_true, and_true]
      exact ⟨wellShaped_identifier (.inl hname),
        fun param hparam => wellShaped_identifier (.inl (hparams param hparam)),
        wellShaped_block ih⟩
  | declaredClass hname _ ih =>
    exact ⟨rfl, wellShaped_iff.mpr ⟨by simp [isShaped, isFreeName_of_isName hname, isBlock],
      by simp [children, wellShaped_identifier (.inl hname), wellShaped_block ih]⟩⟩

end Node

/-! ## Checks of well-shaped trees -/

namespace Check

open Node

/-- A step that ends without an `Obstacle`, whatever the state that it is taken in. -/
def Finishes (step : Check Unit) : Prop := ∀ state, (step.run state).1 = .ok ()

variable {first second : Check Unit} {node : Node} {nodes : List Node}

/-- `pure ()` finishes. -/
theorem finishes_pure : Finishes (pure ()) := fun _ => rfl

/-- Steps one after the other finish if each of them does. -/
theorem Finishes.bind (h : Finishes first) (hnext : Finishes second) :
    Finishes (do first; second) := by
  intro state
  have hfirst : first.run state = (.ok (), (first.run state).2) := Prod.ext (h state) rfl
  rw [run_bind_of_ok hfirst]
  exact hnext _

/-- A step that looks at the table finishes if it does with every table. -/
theorem finishes_table_bind {next : SymbolTable → Check Unit} (h : ∀ table, Finishes (next table)) :
    Finishes (table >>= next) := by
  intro state
  rw [run_table_bind]
  exact h _ state

/-- `inScope` finishes if its step does. -/
theorem Finishes.inScope {kind : ScopeKind} (h : Finishes first) :
    Finishes (Check.inScope kind first) := fun _ => h _

/-- `trees` finish if each `tree` does. -/
theorem finishes_trees (h : ∀ node ∈ nodes, Finishes (tree node)) : Finishes (trees nodes) := by
  induction nodes with
  | nil =>
    rw [trees]
    exact finishes_pure
  | cons node nodes ih =>
    obtain ⟨hnode, hnodes⟩ := List.forall_mem_cons.mp h
    rw [trees]
    exact hnode.bind (ih hnodes)

/-- `tree` finishes on a node that may be left out if it does where the node is there. -/
theorem finishes_tree_of_present (h : ∀ child ∈ present [node], Finishes (tree child)) :
    Finishes (tree node) := by
  cases node
  case absent =>
    rw [tree]
    exact finishes_pure
  all_goals exact h _ (by simp [present, isAbsent])

/-- `declare` finishes, with a definition or a mismatch. -/
theorem finishes_declare (name : String) (start : Int) (declared : TypeTag) (init : Node) :
    Finishes (declare name start declared init) := by
  unfold declare
  split
  · exact fun _ => rfl
  · refine finishes_table_bind fun table => ?_
    dsimp only
    split <;> exact fun _ => rfl

/-- `judge` finishes. -/
theorem finishes_judge (name : String) (value : Node) : Finishes (judge name value) := by
  refine finishes_table_bind fun table => ?_
  split
  · exact finishes_pure
  · exact finishes_pure
  · dsimp only
    split
    · exact fun _ => rfl
    · exact finishes_pure

/-- `defineParams` finishes if the parameters are names. -/
theorem finishes_defineParams (h : ∀ param ∈ nodes, param.isFreeName = true) :
    Finishes (defineParams nodes) := by
  refine finishes_table_bind fun table => ?_
  split
  · induction nodes with
    | nil => exact finishes_pure
    | cons param params ih =>
      obtain ⟨hparam, hparams⟩ := List.forall_mem_cons.mp h
      refine Finishes.bind ?_ (ih hparams)
      cases param with
      | identifier => exact fun _ => rfl
      | _ => cases hparam
  · exact finishes_pure

/-- `tree` finishes on a node that `isShaped` if it does on all nodes below it. -/
theorem finishes_of_isShaped (h : node.isShaped = true)
    (hbelow : ∀ child ∈ node.children, ∀ inner ∈ child.subtrees, Finishes (tree inner)) :
    Finishes (tree node) := by
  have hself (inner : Node) : inner ∈ inner.subtrees := by simp [subtrees_eq inner]
  have hchild (child : Node) (hchild : child ∈ node.children) : Finishes (tree child) :=
    hbelow child hchild child (hself child)
  -- functions and classes check what is in their block, without the scope of the block itself
  have hgrandchild (body : Node) (hbody : body ∈ node.children) :
      ∀ inner ∈ body.children, Finishes (tree inner) := by
    refine fun inner hinner => hbelow body hbody inner ?_
    rw [subtrees_eq body]
    exact List.mem_cons_of_mem _ (List.mem_flatMap.mpr ⟨inner, hinner, hself inner⟩)
  cases node with
  | absent => cases h
  | identifier | literal =>
    rw [tree]
    exact finishes_pure
  | program | array | object =>
    rw [tree]
    exact finishes_trees hchild
  | block =>
    rw [tree]
    exact (finishes_trees hchild).inScope
  | variableDeclaration span type name init =>
    simp only [isShaped, Bool.and_eq_true] at h
    cases name with
    | identifier nameSpan name =>
      have hinit : Finishes (tree init) := finishes_tree_of_present fun child hpresent =>
        hchild child (List.mem_cons_of_mem _ hpresent)
      cases type with
      | none =>
        rw [tree]
        exact Finishes.bind (fun _ => rfl) hinit
      | some type =>
        -- this is where a type that is none would stop the check
        obtain ⟨tag, -, htag⟩ := exists_declaredType_eq (List.contains_iff_mem.mp h.1.1)
        rw [tree, htag, pure_bind]
        exact finishes_declare name span.start tag init
    | _ => simp [isFreeName] at h
  | assignment span operator target value =>
    simp only [isShaped, Bool.and_eq_true] at h
    cases target with
    | identifier =>
      rw [tree]
      exact (finishes_judge _ _).bind (hchild value (by simp [children]))
    | _ => simp [isIdentifier] at h
  | ifStatement span test consequent alternate =>
    rw [tree]
    refine (hchild test (by simp [children])).bind
      ((hchild consequent (by simp [children])).bind (finishes_tree_of_present fun child hpresent =>
        hchild child ?_))
    exact List.mem_cons_of_mem _ (List.mem_cons_of_mem _ hpresent)
  | whileStatement span test body =>
    rw [tree]
    exact (hchild test (by simp [children])).bind (hchild body (by simp [children]))
  | forStatement span init test update body =>
    have hclauses : ∀ child ∈ present ([init] ++ ([test] ++ ([update] ++ [body]))),
      Finishes (tree child) := hchild
    simp only [present_append, List.forall_mem_append] at hclauses
    obtain ⟨hinit, htest, hupdate, hbody⟩ := hclauses
    rw [tree]
    exact ((finishes_tree_of_present hinit).bind ((finishes_tree_of_present htest).bind
      ((finishes_tree_of_present hupdate).bind (finishes_tree_of_present hbody)))).inScope
  | functionDeclaration span name params body =>
    simp only [isShaped, Bool.and_eq_true, List.all_eq_true] at h
    cases body with
    | block bodySpan nodes =>
      rw [tree]
      exact ((finishes_defineParams h.1.2).bind
        (finishes_trees (hgrandchild (block bodySpan nodes) (by simp [children])))).inScope
    | _ => simp [isBlock] at h
  | classDeclaration span name body =>
    simp only [isShaped, Bool.and_eq_true] at h
    cases body with
    | block bodySpan nodes =>
      rw [tree]
      exact (finishes_trees (hgrandchild (block bodySpan nodes) (by simp [children]))).inScope
    | _ => simp [isBlock] at h
  | returnStatement span argument =>
    rw [tree]
    exact finishes_tree_of_present hchild
  | expressionStatement span inner | unary span operator inner =>
    rw [tree]
    exact hchild inner (by simp [children])
  | binary span operator left right | logical span operator left right =>
    -- operands are kept on a list, which comes to the same as their check one by one
    rw [tree, operands_eq_trees]
    exact finishes_trees hchild
  | call span callee arguments =>
    rw [tree]
    exact (hchild callee (by simp [children])).bind
      (finishes_trees fun argument hargument => hchild argument (List.mem_cons_of_mem _ hargument))
  | member span left right | property span left right =>
    rw [tree]
    exact (hchild left (by simp [children])).bind (hchild right (by simp [children]))

/-- `tree` finishes on every node of a `WellShaped` tree. -/
theorem finishes_of_wellShaped (h : node.WellShaped) :
    ∀ inner ∈ node.subtrees, Finishes (tree inner) := by
  induction node using Node.subtrees.induct with
  | case1 node ih =>
    obtain ⟨hshaped, hchildren⟩ := wellShaped_iff.mp h
    have hbelow : ∀ child ∈ node.children, ∀ inner ∈ child.subtrees, Finishes (tree inner) :=
      fun child hchild => ih ⟨child, hchild⟩ (hchildren child hchild)
    exact forall_subtrees_iff.mpr ⟨finishes_of_isShaped hshaped hbelow, hbelow⟩

/-- `tree` does nothing for an expression or a property in a `WellShaped` tree. -/
theorem tree_of_wellShaped (h : node.WellShaped)
    (hkind : node.isExpressionKind = true ∨ node.isProperty = true) : tree node = pure () := by
  induction node using Node.subtrees.induct with
  | case1 node ih =>
    obtain ⟨hshaped, hchildren⟩ := wellShaped_iff.mp h
    have hchild (child : Node) (hchild : child ∈ node.children)
        (hkind : child.isExpressionKind = true) : tree child = pure () :=
      ih ⟨child, hchild⟩ (hchildren child hchild) (.inl hkind)
    have hproperty (child : Node) (hchild : child ∈ node.children)
        (hkind : child.isProperty = true) : tree child = pure () :=
      ih ⟨child, hchild⟩ (hchildren child hchild) (.inr hkind)
    cases node with
    | identifier | literal => rw [tree]
    | binary span operator left right | logical span operator left right =>
      simp only [isShaped, Bool.and_eq_true] at hshaped
      rw [tree, operands_eq_trees]
      refine trees_eq_pure (List.forall_mem_cons.mpr ⟨?_, List.forall_mem_singleton.mpr ?_⟩)
      · exact hchild left (by simp [children]) hshaped.1.2
      · exact hchild right (by simp [children]) hshaped.2
    | unary span operator operand =>
      simp only [isShaped, Bool.and_eq_true] at hshaped
      rw [tree]
      exact hchild operand (by simp [children]) hshaped.2
    | call span callee arguments =>
      simp only [isShaped, Bool.and_eq_true, List.all_eq_true] at hshaped
      rw [tree, hchild callee (by simp [children]) (isExpressionKind_of_isPathKind hshaped.1),
        pure_bind]
      exact trees_eq_pure fun argument hargument =>
        hchild argument (List.mem_cons_of_mem _ hargument) (hshaped.2 argument hargument)
    | member span owner name =>
      simp only [isShaped, Bool.and_eq_true] at hshaped
      rw [tree, hchild owner (by simp [children]) (isExpressionKind_of_isPathKind hshaped.1),
        pure_bind]
      exact hchild name (by simp [children]) (isExpressionKind_of_isFreeName hshaped.2)
    | array span elements =>
      rw [tree]
      exact trees_eq_pure fun element helement =>
        hchild element helement (List.all_eq_true.mp hshaped element helement)
    | object span properties =>
      rw [tree]
      exact trees_eq_pure fun property hmem =>
        hproperty property hmem (List.all_eq_true.mp hshaped property hmem)
    | property span key value =>
      simp only [isShaped, Bool.and_eq_true] at hshaped
      rw [tree, hchild key (by simp [children]) (isExpressionKind_of_isString hshaped.1), pure_bind]
      exact hchild value (by simp [children]) hshaped.2
    | _ => simp [isExpressionKind, isProperty] at hkind

end Check

/-! ## Documents -/

/-- What the shape of a document's tree comes to: `Node.isShaped` everywhere, and checks that meet
no obstacle. -/
structure ReadsWellShaped (reading : Reading) : Prop where
  /-- `isShaped` holds at every node. -/
  shaped : ∀ node ∈ reading.program.subtrees, node.isShaped = true
  /-- A check of the document meets no obstacle, in either mode and whatever was noted before. -/
  checked : ∀ nested before, (checkStatements nested reading.statements before).1 = .ok ()
  /-- The check of any of the nodes by itself meets no obstacle. -/
  finishes : ∀ node ∈ reading.program.subtrees, (Check.tree node).Finishes
  /-- The check of an expression defines nothing and notes nothing. -/
  idle : ∀ node ∈ reading.program.subtrees, node.isExpressionKind = true →
    ∀ state, (Check.tree node).run state = (.ok (), state)

/-- The tree of a document is well shaped (`ReadsWellShaped`), whatever errors the document has. -/
theorem readDocument_wellShaped {text : List Char} {tokens : List Token}
    (h : tokenize text = .ok tokens) :
    ∃ reading, readDocument text = .ok reading ∧ ReadsWellShaped reading := by
  obtain ⟨reading, hreading, hprogram, -⟩ := exists_reading h
  have hstatements (statement : Node) (hstatement : statement ∈ reading.statements) :=
    Node.wellShaped_of_isStatement (isStatement_of_readDocument hreading statement hstatement)
  have htree : reading.program.WellShaped := by
    unfold Reading.statements at hstatements
    rw [hprogram] at hstatements ⊢
    exact Node.wellShaped_iff.mpr
      ⟨List.all_eq_true.mpr fun statement hstatement => (hstatements statement hstatement).1,
        fun statement hstatement => (hstatements statement hstatement).2⟩
  refine ⟨reading, hreading, htree, fun nested before => ?_, Check.finishes_of_wellShaped htree, ?_⟩
  · refine Check.finishes_trees (fun statement hstatement => ?_) _
    exact Check.finishes_of_wellShaped (hstatements statement hstatement).2 statement
      (by simp [Node.subtrees_eq statement])
  · intro node hnode hkind state
    rw [Check.tree_of_wellShaped (htree.of_mem hnode) (.inl hkind)]
    rfl

/-- An assignment lacks its value and a declaration its name: both are given up, and the call
between them is read. -/
theorem readDocument_wellShaped_broken :
    let text := "if (a) \x7b x = ; f(); \x7d var".toList
    ∃ reading, readDocument text = .ok reading ∧ ReadsWellShaped reading ∧
      reading.errors.map (·.fault.code) = ["P001", "P010"] ∧ reading.statements = [
        .ifStatement (.between 0 21) (.identifier (.between 4 5) "a") (.block (.between 7 21)
          [.expressionStatement (.between 15 19)
            (.call (.between 15 18) (.identifier (.between 15 16) "f") [])]) .absent] := by
  intro text
  have htokens : tokenize text = .ok [⟨.keyword, "if", 0, 2⟩, ⟨.symbol, "(", 3, 4⟩,
      ⟨.identifier, "a", 4, 5⟩, ⟨.symbol, ")", 5, 6⟩, ⟨.symbol, "\x7b", 7, 8⟩,
      ⟨.identifier, "x", 9, 10⟩, ⟨.symbol, "=", 11, 12⟩, ⟨.symbol, ";", 13, 14⟩,
      ⟨.identifier, "f", 15, 16⟩, ⟨.symbol, "(", 16, 17⟩, ⟨.symbol, ")", 17, 18⟩,
      ⟨.symbol, ";", 18, 19⟩, ⟨.symbol, "\x7d", 20, 21⟩, ⟨.keyword, "var", 22, 25⟩] := by
    decide +kernel
  obtain ⟨reading, hreading, hshaped⟩ := readDocument_wellShaped htokens
  obtain ⟨hstatements, hevents⟩ := reading_eq htokens hreading
  refine ⟨reading, hreading, hshaped, ?_, hstatements⟩
  unfold Reading.errors
  rw [hevents]
  decide

end NeutronLang
