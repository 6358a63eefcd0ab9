import NeutronLang.Proofs.FlatChecking
import NeutronLang.Proofs.LexicalScoping
import NeutronLang.Proofs.SpanOrder
import NeutronLang.Proofs.TreeShapes

/-!
# Flat and nested checks agree where scopes do not matter

A flat check has one table, in which what a scope declares is left behind; a nested one gives it up.
The two are compared along the tree, as folds without tables: `Known.settle` over the bindings, and
`Lexical.tree` by frames. They need not know the same variables. The invariant (`Agree`) is that,
from the offset reached on, the variables that still occur have the same types, where one that is
not known is of any type. So it does not matter what is left behind in the flat table if its name
does not occur again, nor that the parameters of functions are known to the nested check only, which
gives them no type but any. For that the flat table may have no type for such a name, not even one
left behind: that is the second half of the invariant.
-/

namespace NeutronLang

open Grammar Rendering

namespace Node

/-! ## Variables -/

/-- The children of a node in which variables occur. The names that declarations, functions and
classes give, parameters and the names of members stand for no variable. -/
def users : Node → List Node
  | variableDeclaration _ _ _ init => present [init]
  | functionDeclaration _ _ _ body | classDeclaration _ _ body => [body]
  | member _ owner _ => [owner]
  | node => node.children

/-- The `users` of a node are children of it. -/
theorem mem_children_of_mem_users {node child : Node} (h : child ∈ node.users) :
    child ∈ node.children := by
  cases node <;> simp_all [users, children]

/-- The identifiers of a tree that stand for variables, in their order, as `users` holds them. -/
def uses (node : Node) : List Node :=
  [node].filter (·.isIdentifier) ++ node.users.attach.flatMap fun child => child.1.uses
termination_by sizeOf node
decreasing_by exact sizeOf_child_lt (mem_children_of_mem_users child.2)

/-- The `uses` of a tree are its root, if it is a variable, and those of its `users`. -/
theorem uses_eq (node : Node) :
    node.uses = [node].filter (·.isIdentifier) ++ node.users.flatMap uses := by
  rw [uses, List.flatMap_subtype fun _ _ => rfl, List.unattach_attach]

/-- The `uses` of one of the `users` are uses of the tree. -/
theorem mem_uses_of_mem_users {node child use : Node} (h : child ∈ node.users)
    (huse : use ∈ child.uses) : use ∈ node.uses := by
  rw [uses_eq]
  exact List.mem_append_right _ (List.mem_flatMap.mpr ⟨child, h, huse⟩)

/-- A name by itself is among its own `uses`. -/
theorem mem_uses_identifier (span : Span) (name : String) :
    identifier span name ∈ (identifier span name).uses := by
  rw [uses_eq]
  exact List.mem_append_left _ (List.mem_singleton_self _)

/-- A tree is among its own `subtrees`. -/
theorem mem_subtrees_self (node : Node) : node ∈ node.subtrees :=
  subtrees_eq node ▸ List.mem_cons_self

/-- The `uses` of a tree are among its `subtrees`. -/
theorem mem_subtrees_of_mem_uses {node use : Node} (h : use ∈ node.uses) :
    use ∈ node.subtrees := by
  induction node using Node.subtrees.induct with
  | case1 node ih =>
    rw [uses_eq] at h
    rw [subtrees_eq]
    rcases List.mem_append.mp h with hroot | hchild
    · rw [List.mem_singleton.mp (List.mem_filter.mp hroot).1]
      exact List.mem_cons_self
    · obtain ⟨child, hchild, huse⟩ := List.mem_flatMap.mp hchild
      have hmem := mem_children_of_mem_users hchild
      exact List.mem_cons_of_mem _ (List.mem_flatMap.mpr ⟨child, hmem, ih ⟨child, hmem⟩ huse⟩)

/-- The `uses` of a tree are identifiers. -/
theorem isIdentifier_of_mem_uses {node use : Node} (h : use ∈ node.uses) :
    use.isIdentifier = true := by
  induction node using Node.subtrees.induct with
  | case1 node ih =>
    rw [uses_eq] at h
    rcases List.mem_append.mp h with hroot | hchild
    · exact (List.mem_filter.mp hroot).2
    · obtain ⟨child, hchild, huse⟩ := List.mem_flatMap.mp hchild
      exact ih ⟨child, mem_children_of_mem_users hchild⟩ huse

/-- Where spans nest, none of the `uses` of a tree is empty. -/
theorem Nests.lt_of_mem_uses {node use : Node} (h : node.Nests) (huse : use ∈ node.uses) :
    use.span.start < use.span.stop := by
  rcases (h use (mem_subtrees_of_mem_uses huse)).2 with hlt | ⟨offset, rfl⟩
  · exact hlt
  · cases isIdentifier_of_mem_uses huse

/-- The variables in a tree have the same types in both, as far as they are not `any`. -/
def SameTypes (node : Node) (typeOf? typeOf?' : String → Option TypeTag) : Prop :=
  ∀ span name, identifier span name ∈ node.uses →
    (typeOf? name).getD .any = (typeOf?' name).getD .any

variable {typeOf? typeOf?' : String → Option TypeTag}

/-- `SameTypes` holds of the `users` of a node if it does of the node. -/
theorem SameTypes.of_mem {node child : Node} (h : node.SameTypes typeOf? typeOf?')
    (hchild : child ∈ node.users) : child.SameTypes typeOf? typeOf?' :=
  fun span name huse => h span name (mem_uses_of_mem_users hchild huse)

/-- The type of an expression is given by those of the variables that occur in it: `typeUnder`
agrees where `SameTypes` holds. -/
theorem SameTypes.typeUnder_eq {node : Node} (h : node.SameTypes typeOf? typeOf?') :
    node.typeUnder typeOf? = node.typeUnder typeOf?' := by
  induction node using Node.subtrees.induct with
  | case1 node ih =>
    have hchild (child : Node) (hmem : child ∈ node.users) :
        child.typeUnder typeOf? = child.typeUnder typeOf?' :=
      ih ⟨child, mem_children_of_mem_users hmem⟩ (h.of_mem hmem)
    cases node with
    | binary | logical => simp only [typeUnder, hchild _ List.mem_cons_self,
        hchild _ (List.mem_cons_of_mem _ List.mem_cons_self)]
    | unary => simp only [typeUnder, hchild _ List.mem_cons_self]
    | identifier span name =>
      simp only [typeUnder]
      exact h span name (mem_uses_identifier span name)
    | _ => rfl

/-- A variable that is not known is assigned to like one of type `any`. -/
theorem judgement_assignment {span nameSpan : Span} {operator name : String} {value : Node} :
    (assignment span operator (identifier nameSpan name) value).judgement typeOf? =
      match (typeOf? name).getD .any with
      | .any => .fits
      | declared =>
        if declared.accepts (value.typeUnder typeOf?) then .fits
        else .mismatch ⟨declared, value.typeUnder typeOf?, .assignment name, value.span⟩ := by
  rw [judgement]
  cases typeOf? name with
  | none => rfl
  | some declared => cases declared <;> rfl

/-- The `judgement` of a binding agrees where `SameTypes` holds. -/
theorem SameTypes.judgement_eq {node : Node} (h : node.SameTypes typeOf? typeOf?') :
    node.judgement typeOf? = node.judgement typeOf?' := by
  cases node with
  | variableDeclaration span type target init =>
    cases target <;> cases type
    case identifier.some nameSpan name type =>
      -- a value that is left out is not looked at, so its type makes no difference
      have htype : init.isAbsent = true ∨ init.typeUnder typeOf? = init.typeUnder typeOf?' := by
        cases hinit : init.isAbsent with
        | true => exact .inl rfl
        | false => exact .inr (h.of_mem (by simp [users, present, hinit])).typeUnder_eq
      rw [judgement, judgement]
      rcases htype with habsent | htype
      · simp [habsent]
      · rw [htype]
    all_goals rfl
  | assignment span operator target value =>
    cases target
    case identifier targetSpan name =>
      have hvalue : value.SameTypes typeOf? typeOf?' := h.of_mem (by simp [users, children])
      have htarget : (identifier targetSpan name).SameTypes typeOf? typeOf?' :=
        h.of_mem (by simp [users, children])
      rw [judgement_assignment, judgement_assignment, hvalue.typeUnder_eq,
        htarget targetSpan name (mem_uses_identifier targetSpan name)]
    all_goals rfl
  | _ => rfl

/-! ## Declarations and scopes -/

/-- The name that a declaration declares. -/
def declared? : Node → Option String
  | variableDeclaration _ _ (identifier _ name) _ => some name
  | _ => none

/-- The name that a declaration with a type declares. -/
def typed? : Node → Option String
  | variableDeclaration _ (some _) (identifier _ name) _ => some name
  | _ => none

/-- The parameters of a function. -/
def params : Node → List Node
  | functionDeclaration _ _ params _ => params
  | _ => []

/-- Whether a node is a scope: a document, a block, as the bodies of functions and classes are, or
a loop with variables of its own. -/
def isScope : Node → Bool
  | program .. | block .. | forStatement .. => true
  | _ => false

/-- One of the `uses` of a name in a program lies at an offset or later. -/
def OccursFrom (program : Node) (offset : Int) (name : String) : Prop :=
  ∃ span, identifier span name ∈ program.uses ∧ offset ≤ span.start

/-- The name `name` is declared with a type somewhere in `program`. -/
def Types (program : Node) (name : String) : Prop :=
  ∃ declaration ∈ program.subtrees, declaration.typed? = some name

/-- `OccursFrom` a later offset is `OccursFrom` an earlier one. -/
theorem OccursFrom.mono {program : Node} {offset later : Int} {name : String}
    (h : program.OccursFrom later name) (hle : offset ≤ later) :
    program.OccursFrom offset name := by
  obtain ⟨span, huse, hstart⟩ := h
  exact ⟨span, huse, Int.le_trans hle hstart⟩

end Node

/-! ## Agreement -/

variable {program : Node} {first last : Int} {known frame : Known} {frames outer : List Known}

/-- The variables that a flat check knows (`known`) and those in the `frames` of a nested one have
the same types, as far as they occur from `offset` on. -/
structure Agree (program : Node) (offset : Int) (known : Known) (frames : List Known) : Prop where
  types : ∀ name, program.OccursFrom offset name →
    (known.typeOf? name).getD .any = (Lexical.typeOf? frames name).getD .any
  /-- A name that the program `Types` nowhere has no type but `any` in the flat check. -/
  untyped : ∀ name, ¬ program.Types name → (known.typeOf? name).getD .any = .any

/-- `Agree` stays true of a later offset, where there is less to agree on. -/
theorem Agree.mono (h : Agree program first known frames) (hle : first ≤ last) :
    Agree program last known frames :=
  ⟨fun name hoccurs => h.types name (hoccurs.mono hle), h.untyped⟩

/-- `Lexical.typeOf?` looks into the innermost frame first. -/
theorem Lexical.typeOf?_cons (frame : Known) (outer : List Known) (name : String) :
    typeOf? (frame :: outer) name = (frame.typeOf? name).or (typeOf? outer name) := by
  unfold typeOf? find? Known.typeOf?
  rw [List.findSome?_cons]
  cases frame name <;> rfl

/-- `define` gives its variable its type, and leaves those of others as they are. -/
theorem Known.typeOf?_define (known : Known) (symbol : Symbol) (name : String) :
    (known.define symbol).typeOf? name =
      if name = symbol.name then some symbol.type else known.typeOf? name := by
  unfold typeOf? define
  split
  · next hname => rw [hname, Function.update_self, Option.map_some]
  · next hname => rw [Function.update_of_ne hname]

/-- `Agree` stays true when a symbol is defined in both. -/
theorem Agree.define {symbol : Symbol} (h : Agree program first known (frame :: outer))
    (hsymbol : symbol.type = .any ∨ program.Types symbol.name) :
    Agree program first (known.define symbol) (frame.define symbol :: outer) := by
  refine ⟨fun name hoccurs => ?_, fun name huntyped => ?_⟩
  · have htypes := h.types name hoccurs
    rw [Lexical.typeOf?_cons] at htypes ⊢
    rw [Known.typeOf?_define, Known.typeOf?_define]
    split
    · rfl
    · exact htypes
  · rw [Known.typeOf?_define]
    split
    · next hname => exact hsymbol.resolve_right (hname ▸ huntyped)
    · exact h.untyped name huntyped

/-- What is `known` has any type, and is declared with none. -/
def Known.IsPlain (known : Known) (program : Node) : Prop :=
  ∀ name symbol, known name = some symbol → symbol.type = .any ∧ ¬ program.Types name

/-- `Known.nothing` is plain. -/
theorem Known.isPlain_nothing : Known.nothing.IsPlain program := fun _ _ h => nomatch h

/-- From the offset `first` to `last` a flat check settles `bindings` with the mismatches that a
nested one has, and afterwards the two agree (`Agree`) if they did before. -/
def Agrees (program : Node) (first last : Int) (bindings : List Node)
    (result : List Known → Known → Known × List TypeMismatch) : Prop :=
  ∀ known outer frame, Agree program first known (frame :: outer) →
    Agree program last (known.settle bindings).1 ((result outer frame).1 :: outer) ∧
      (known.settle bindings).2 = (result outer frame).2

/-- What a `judgement` defines is the variable of a declaration. -/
theorem Node.declared?_of_judgement {node : Node} {typeOf? : String → Option TypeTag}
    {symbol : Symbol} (h : node.judgement typeOf? = .defines symbol) :
    node.declared? = some symbol.name ∧
      (symbol.type = .any ∨ node.typed? = some symbol.name) := by
  unfold judgement at h
  split at h
  · cases h
    exact ⟨rfl, .inl rfl⟩
  · split at h
    · cases h
    · split at h
      · cases h
        exact ⟨rfl, .inr rfl⟩
      · cases h
  · split at h
    · cases h
    · cases h
    · split at h <;> cases h
  · cases h

/-- `settle` leaves what is known of a name that no binding declares. -/
theorem Known.settle_of_undeclared {bindings : List Node} {name : String}
    (h : ∀ binding ∈ bindings, binding.declared? ≠ some name) :
    (known.settle bindings).1 name = known name := by
  induction bindings generalizing known with
  | nil => rfl
  | cons binding bindings ih =>
    obtain ⟨hbinding, hbindings⟩ := List.forall_mem_cons.mp h
    have hafter : (known.judged (binding.judgement known.typeOf?)).1 name = known name := by
      cases hjudgement : binding.judgement known.typeOf? with
      | mismatch | fits => rfl
      | defines symbol =>
        have hname : name ≠ symbol.name := by
          rintro rfl
          exact hbinding (Node.declared?_of_judgement hjudgement).1
        exact Function.update_of_ne hname _ _
    rw [settle]
    exact (ih hbindings).trans hafter

namespace Agrees

variable {bindings more : List Node} {result next : List Known → Known → Known × List TypeMismatch}

/-- `Agrees` holds where nothing is done. -/
theorem nothing (hle : first ≤ last) : Agrees program first last [] fun _ frame => (frame, []) :=
  fun _ _ _ h => ⟨h.mono hle, rfl⟩

/-- `Agrees` between two offsets holds between any further apart. -/
theorem mono {before after : Int} (h : Agrees program first last bindings result)
    (hfirst : before ≤ first) (hlast : last ≤ after) :
    Agrees program before after bindings result := fun known outer frame hagree => by
  obtain ⟨hafter, hmismatches⟩ := h known outer frame (hagree.mono hfirst)
  exact ⟨hafter.mono hlast, hmismatches⟩

/-- `Agrees` holds of trees in a row if it does of each. -/
theorem trees {nodes : List Node} (hrow : InRow first nodes last)
    (h : ∀ node ∈ nodes, Agrees program node.span.start node.span.stop node.bindings
      (Lexical.tree · · node)) :
    Agrees program first last (nodes.flatMap Node.bindings) (Lexical.trees · · nodes) := by
  induction hrow with
  | nil hle =>
    simp only [List.flatMap_nil, Lexical.trees]
    exact nothing hle
  | cons hle hrow ih =>
    obtain ⟨hnode, hnodes⟩ := List.forall_mem_cons.mp h
    intro known outer frame hagree
    obtain ⟨hafter, hmismatches⟩ := hnode known outer frame (hagree.mono hle)
    obtain ⟨hlast, hmore⟩ := ih hnodes _ _ _ hafter
    simp only [List.flatMap_cons, Known.settle_append, Lexical.trees_cons]
    exact ⟨hlast, congrArg₂ (· ++ ·) hmismatches hmore⟩

/-- `Agrees` holds of trees of which those that are there are in a row, if it does of each that is
there. -/
theorem present {nodes : List Node} (hrow : InRow first (Node.present nodes) last)
    (h : ∀ node ∈ nodes, node.isAbsent = false →
      Agrees program node.span.start node.span.stop node.bindings (Lexical.tree · · node)) :
    Agrees program first last (nodes.flatMap Node.bindings) (Lexical.trees · · nodes) := by
  rw [← Node.bindings_present]
  simp only [← Lexical.trees_present nodes]
  refine trees hrow fun node hnode => ?_
  obtain ⟨hmem, hpresent⟩ := List.mem_filter.mp hnode
  exact h node hmem (by simpa using hpresent)

/-- `Agrees` holds of a node that is not a binding if it does of its parts. -/
theorem of_eq {more : List Node} {next : List Known → Known → Known × List TypeMismatch}
    (h : Agrees program first last bindings result) (hbindings : more = bindings)
    (hnext : ∀ outer frame, next outer frame = result outer frame) :
    Agrees program first last more next := by
  obtain rfl : next = result := funext fun outer => funext fun frame => hnext outer frame
  exact hbindings ▸ h

/-- `Agrees` holds of expressions, which do nothing in either check. -/
theorem expression {node : Node} (h : node = .absent ∨ IsExpression node) :
    Agrees program node.span.start node.span.stop node.bindings (Lexical.tree · · node) := by
  refine (nothing node.span.start_le_stop).of_eq ?_ fun _ _ =>
    Lexical.tree_of_absent_or_isExpression h
  rcases h with rfl | h
  · exact Node.bindings_absent
  · exact Node.bindings_of_isExpression h

/-- `Agrees` holds of a scope if it does of what is in it. What is declared there is given up behind
it in the nested check, which makes no difference if it does not occur there. -/
theorem inScope {initial : Known} (h : Agrees program first last bindings result)
    (hle : first ≤ last)
    (hinitial : initial.IsPlain program)
    (hends : ∀ binding ∈ bindings, ∀ name ∈ binding.declared?, ¬ program.OccursFrom last name) :
    Agrees program first last bindings fun outer frame =>
      (frame, (result (frame :: outer) initial).2) := by
  intro known outer frame hagree
  have hentered : Agree program first known (initial :: frame :: outer) := by
    refine ⟨fun name hoccurs => ?_, hagree.untyped⟩
    rw [Lexical.typeOf?_cons initial]
    -- a parameter hides a variable of its name only where that is of any type anyway
    cases hsymbol : initial name with
    | none =>
      have hnone : initial.typeOf? name = none := by simp [Known.typeOf?, hsymbol]
      rw [hnone]
      exact hagree.types name hoccurs
    | some symbol =>
      obtain ⟨htype, huntyped⟩ := hinitial name symbol hsymbol
      have hany : initial.typeOf? name = some .any := by simp [Known.typeOf?, hsymbol, htype]
      rw [hany, hagree.untyped name huntyped]
      rfl
  obtain ⟨hafter, hmismatches⟩ := h known (frame :: outer) initial hentered
  refine ⟨⟨fun name hoccurs => ?_, hafter.untyped⟩, hmismatches⟩
  -- what occurs behind the scope was not declared in it, so the flat check knows as much as before
  have hundeclared : (known.settle bindings).1 name = known name :=
    Known.settle_of_undeclared fun binding hbinding hname =>
      hends binding hbinding name hname hoccurs
  rw [Known.typeOf?, hundeclared]
  exact hagree.types name (hoccurs.mono hle)

end Agrees

/-! ## Trees of a program -/

namespace Node

/-- A tree is a part of `program`, as far as its nodes and variables go, and its spans nest. -/
structure Stands (program node : Node) : Prop where
  nests : node.Nests
  subtrees : ∀ inner ∈ node.subtrees, inner ∈ program.subtrees
  uses : ∀ use ∈ node.uses, use ∈ program.uses

/-- The `users` of a node stand in the program if the node does. -/
theorem Stands.of_mem {node child : Node} (h : program.Stands node) (hchild : child ∈ node.users) :
    program.Stands child := by
  have hmem := mem_children_of_mem_users hchild
  refine ⟨(forall_subtrees_iff.mp h.nests).2 child hmem, fun inner hinner => ?_,
    fun use huse => h.uses use (mem_uses_of_mem_users hchild huse)⟩
  exact h.subtrees inner ((subtrees_eq node) ▸
    List.mem_cons_of_mem _ (List.mem_flatMap.mpr ⟨child, hmem, hinner⟩))

/-- The children of a node that stands in a program lie in a row. -/
theorem Stands.row {node : Node} (h : program.Stands node) :
    InRow node.span.start node.children node.span.stop :=
  (forall_subtrees_iff.mp h.nests).1.1

/-- The `uses` of a node that stands in a program occur from its start on. -/
theorem Stands.occursFrom {node : Node} {span : Span} {name : String} (h : program.Stands node)
    (huse : identifier span name ∈ node.uses) : program.OccursFrom node.span.start name :=
  ⟨span, h.uses _ huse, (h.nests.within _ (mem_subtrees_of_mem_uses huse)).1⟩

/-- In a program without shadows scopes make no difference: what is declared in one does not occur
behind it (`Node.OccursFrom`), and no parameter has the name of a variable with a type. -/
structure Unshadowed (program : Node) : Prop where
  ends : ∀ scope, program.Stands scope → scope.isScope = true → ∀ declaration ∈ scope.subtrees,
    ∀ name ∈ declaration.declared?, ¬ program.OccursFrom scope.span.stop name
  params : ∀ function ∈ program.subtrees, ∀ span name, identifier span name ∈ function.params →
    ¬ program.Types name

end Node

/-- Parameters leave a frame plain if none has the name of a variable with a type. -/
theorem Known.IsPlain.params {params : List Node} (h : frame.IsPlain program)
    (hparams : ∀ span name, .identifier span name ∈ params → ¬ program.Types name) :
    (params.foldl Lexical.param frame).IsPlain program := by
  induction params generalizing frame with
  | nil => exact h
  | cons param params ih =>
    refine ih ?_ fun span name hmem => hparams span name (List.mem_cons_of_mem _ hmem)
    cases param
    case identifier span declared =>
      intro name symbol hsymbol
      by_cases hname : name = declared
      · subst hname
        rw [Lexical.param, Known.define, Function.update_self] at hsymbol
        cases hsymbol
        exact ⟨rfl, hparams span name List.mem_cons_self⟩
      · rw [Lexical.param, Known.define, Function.update_of_ne hname] at hsymbol
        exact h name symbol hsymbol
    all_goals exact h

namespace Agrees

/-- `Agrees` holds of a binding, which is judged alike and defines the same in both checks. -/
theorem binding {node : Node} (h : IsDeclaration node ∨ IsAssignment node)
    (hstands : program.Stands node) :
    Agrees program node.span.start node.span.stop node.bindings (Lexical.tree · · node) := by
  intro known outer frame hagree
  have hjudgement : node.judgement known.typeOf? =
      node.judgement (Lexical.typeOf? (frame :: outer)) :=
    Node.SameTypes.judgement_eq fun span name huse =>
      hagree.types name (hstands.occursFrom huse)
  have hlast := hagree.mono node.span.start_le_stop
  dsimp only
  rw [Node.bindings_of_binding h, Known.settle_singleton, Lexical.tree_binding h, ← hjudgement]
  cases hcase : node.judgement known.typeOf? with
  | mismatch | fits => exact ⟨hlast, rfl⟩
  | defines symbol =>
    refine ⟨hlast.define ?_, rfl⟩
    exact (Node.declared?_of_judgement hcase).2.imp_right fun htyped =>
      ⟨node, hstands.subtrees node (Node.mem_subtrees_self node), htyped⟩

/-- `Agrees` holds of the parts of a statement one after the other if it does of each. -/
theorem parts {node : Node} {nodes : List Node} (hstands : program.Stands node)
    (hparts : (Node.present nodes).Sublist node.children) (husers : node.users = node.children)
    (h : ∀ part ∈ nodes, part.isAbsent = false → program.Stands part →
      Agrees program part.span.start part.span.stop part.bindings (Lexical.tree · · part)) :
    Agrees program node.span.start node.span.stop (nodes.flatMap Node.bindings)
      (Lexical.trees · · nodes) := by
  refine present (hstands.row.sublist hparts) fun part hpart hpresent =>
    h part hpart hpresent (hstands.of_mem ?_)
  rw [husers]
  exact hparts.subset (List.mem_filter.mpr ⟨hpart, by rw [hpresent, Bool.not_false]⟩)

/-- `Agrees` holds of a conditional if it does of its parts. -/
theorem conditional {span : Span} {test consequent alternate : Node}
    (hstands : program.Stands (.ifStatement span test consequent alternate))
    (htest : IsExpression test)
    (hconsequent : program.Stands consequent → Agrees program consequent.span.start
      consequent.span.stop consequent.bindings (Lexical.tree · · consequent))
    (halternate : alternate.isAbsent = false → program.Stands alternate →
      Agrees program alternate.span.start alternate.span.stop alternate.bindings
        (Lexical.tree · · alternate)) :
    Agrees program span.start span.stop (Node.ifStatement span test consequent alternate).bindings
      (Lexical.tree · · (.ifStatement span test consequent alternate)) := by
  have hparts : (Node.present [test, consequent, alternate]).Sublist
      (Node.ifStatement span test consequent alternate).children :=
    (Node.present_append [test, consequent] [alternate]) ▸ List.filter_sublist.append_right _
  refine (parts hstands hparts rfl ?_).of_eq (by simp) fun _ _ => Lexical.tree_ifStatement
  refine List.forall_mem_cons.mpr ⟨fun _ _ => expression (.inr htest), ?_⟩
  exact List.forall_mem_cons.mpr ⟨fun _ => hconsequent, List.forall_mem_singleton.mpr halternate⟩

variable (hprogram : program.Unshadowed)

include hprogram

/-- `Agrees` holds of a block with a scope of its own, which makes no difference, nor do parameters
in it. -/
theorem scope {span : Span} {nodes : List Node} {initial : Known}
    (hstands : program.Stands (.block span nodes))
    (hinitial : initial.IsPlain program)
    (h : ∀ node ∈ nodes, program.Stands node →
      Agrees program node.span.start node.span.stop node.bindings (Lexical.tree · · node)) :
    Agrees program span.start span.stop (Node.block span nodes).bindings fun outer frame =>
      (frame, (Lexical.trees (frame :: outer) initial nodes).2) := by
  have hnodes := trees hstands.row fun node hnode => h node hnode (hstands.of_mem hnode)
  have hends := hprogram.ends _ hstands rfl
  refine (hnodes.of_eq Node.bindings_block fun _ _ => rfl).inScope span.start_le_stop hinitial ?_
  exact fun binding hbinding => hends binding (List.mem_filter.mp hbinding).1

/-- `Agrees` holds of a block as a tree if it does of its statements. -/
theorem block {span : Span} {nodes : List Node} (hstands : program.Stands (.block span nodes))
    (h : ∀ node ∈ nodes, program.Stands node →
      Agrees program node.span.start node.span.stop node.bindings (Lexical.tree · · node)) :
    Agrees program span.start span.stop (Node.block span nodes).bindings
      (Lexical.tree · · (.block span nodes)) :=
  (scope hprogram hstands Known.isPlain_nothing h).of_eq rfl fun _ _ => by rw [Lexical.tree]

/-- `Agrees` holds of every statement of the program. -/
theorem of_isStatement {node : Node} (h : IsStatement node) (hstands : program.Stands node) :
    Agrees program node.span.start node.span.stop node.bindings (Lexical.tree · · node) := by
  induction h with
  | declaration h => exact binding (.inl h) hstands
  | assignment h _ => exact binding (.inr h) hstands
  | @expression span inner h _ =>
    have hparts : (Node.present [inner]).Sublist (Node.expressionStatement span inner).children :=
      List.filter_sublist
    refine (parts hstands hparts rfl ?_).of_eq (by simp) fun _ _ => ?_
    · exact List.forall_mem_singleton.mpr fun _ _ => expression (.inr h)
    · rw [Lexical.tree_expressionStatement, Lexical.trees_singleton]
  | @returns span argument h =>
    have hparts : (Node.present [argument]).Sublist
        (Node.returnStatement span argument).children := .refl _
    refine (parts hstands hparts rfl ?_).of_eq (by simp) fun _ _ => ?_
    · exact List.forall_mem_singleton.mpr fun _ _ => expression h
    · rw [Lexical.tree_returnStatement, Lexical.trees_singleton]
  | conditional htest _ ih =>
    exact conditional hstands htest (block hprogram · ih) (by simp [Node.isAbsent])
  | conditionalElse htest _ _ ih ihother =>
    exact conditional hstands htest (block hprogram · ih)
      fun _ => (block hprogram · ihother)
  | conditionalChain htest _ _ ih ihnext =>
    exact conditional hstands htest (block hprogram · ih) fun _ => ihnext
  | @loop span bodySpan test body htest _ ih =>
    have hparts : (Node.present [test, .block bodySpan body]).Sublist
        (Node.whileStatement span test (.block bodySpan body)).children := List.filter_sublist
    refine (parts hstands hparts rfl ?_).of_eq (by simp) fun _ _ => Lexical.tree_whileStatement
    refine List.forall_mem_cons.mpr ⟨fun _ _ => expression (.inr htest), ?_⟩
    exact List.forall_mem_singleton.mpr fun _ hbody => block hprogram hbody ih
  | @forLoop span bodySpan init test update body hinit htest hupdate _ ih =>
    have hclause {clause : Node} (h : (clause = .absent ∨ IsExpression clause) ∨
        (IsDeclaration clause ∨ IsAssignment clause)) (hstands : program.Stands clause) :
        Agrees program clause.span.start clause.span.stop clause.bindings
          (Lexical.tree · · clause) :=
      h.elim expression (binding · hstands)
    have hclauses : Agrees program span.start span.stop
        (Node.forStatement span init test update (.block bodySpan body)).bindings
        (Lexical.trees · · [init, test, update, .block bodySpan body]) := by
      refine (parts hstands (.refl _) rfl ?_).of_eq (by simp) fun _ _ => rfl
      refine List.forall_mem_cons.mpr ⟨fun _ => hclause (Check.initClause_cases hinit), ?_⟩
      refine List.forall_mem_cons.mpr ⟨fun _ => hclause (.inl htest), ?_⟩
      refine List.forall_mem_cons.mpr ⟨fun _ => hclause (Check.updateClause_cases hupdate), ?_⟩
      exact List.forall_mem_singleton.mpr fun _ hbody => block hprogram hbody ih
    -- the clauses belong to the scope of the loop, so what they declare must not occur behind it
    have hends := hprogram.ends _ hstands rfl
    refine (hclauses.inScope span.start_le_stop Known.isPlain_nothing ?_).of_eq rfl fun _ _ => ?_
    · exact fun binding hbinding => hends binding (List.mem_filter.mp hbinding).1
    · rw [Lexical.tree]
  | @function span nameSpan bodySpan name params body _ _ _ ih =>
    have hbody : program.Stands (.block bodySpan body) := hstands.of_mem (by simp [Node.users])
    obtain ⟨hfirst, hlast⟩ := hstands.row.between.1 (.block bodySpan body) (by simp [Node.children])
    -- parameters are no bindings: only the body has any
    have hnone : (params.map fun param => Node.identifier param.1 param.2).flatMap
        Node.bindings = [] := by
      simp [List.flatMap_map]
    have hroot := hstands.subtrees _ (Node.mem_subtrees_self _)
    have hplain := Known.isPlain_nothing.params (hprogram.params _ hroot)
    refine ((scope hprogram hbody hplain ih).mono hfirst hlast).of_eq (by simp [hnone])
      fun _ _ => ?_
    rw [Lexical.tree]
    rfl
  | @declaredClass span nameSpan bodySpan name body _ _ ih =>
    have hbody : program.Stands (.block bodySpan body) := hstands.of_mem (by simp [Node.users])
    obtain ⟨hfirst, hlast⟩ := hstands.row.between.1 (.block bodySpan body) (by simp [Node.children])
    refine ((scope hprogram hbody Known.isPlain_nothing ih).mono hfirst hlast).of_eq (by simp)
      fun _ _ => ?_
    rw [Lexical.tree]

end Agrees

/-! ## Documents -/

namespace Node

/-- A `scope` of a program is the innermost one that holds a `declaration`. -/
structure IsInnermost (program scope declaration : Node) : Prop where
  mem : scope ∈ program.subtrees
  isScope : scope.isScope = true
  holds : declaration ∈ scope.subtrees
  least : ∀ inner ∈ scope.subtrees, inner.isScope = true → declaration ∈ inner.subtrees →
    inner = scope

/-- There is an `IsInnermost` scope where any scope holds a declaration. -/
theorem exists_isInnermost {node scope declaration : Node}
    (hnode : ∀ inner ∈ node.subtrees, inner ∈ program.subtrees) (hmem : scope ∈ node.subtrees)
    (hscope : scope.isScope = true) (hholds : declaration ∈ scope.subtrees) :
    ∃ inner ∈ node.subtrees, program.IsInnermost inner declaration := by
  induction node using Node.subtrees.induct generalizing scope with
  | case1 node ih =>
    have hbelow (child : Node) (hchild : child ∈ node.children) (inner : Node)
        (hinner : inner ∈ child.subtrees) : inner ∈ node.subtrees :=
      subtrees_eq node ▸ List.mem_cons_of_mem _ (List.mem_flatMap.mpr ⟨child, hchild, hinner⟩)
    by_cases hdeeper : ∃ child ∈ node.children, ∃ inner ∈ child.subtrees,
        inner.isScope = true ∧ declaration ∈ inner.subtrees
    · obtain ⟨child, hchild, inner, hinner, hscope, hholds⟩ := hdeeper
      obtain ⟨found, hfound, hinnermost⟩ := ih ⟨child, hchild⟩
        (fun inner hinner => hnode inner (hbelow child hchild inner hinner)) hinner hscope hholds
      exact ⟨found, hbelow child hchild found hfound, hinnermost⟩
    · -- then the scope is the root, and no other is below it
      have hroot (inner : Node) (hinner : inner ∈ node.subtrees) (hscope : inner.isScope = true)
          (hholds : declaration ∈ inner.subtrees) : inner = node := by
        rw [subtrees_eq] at hinner
        refine (List.mem_cons.mp hinner).resolve_right fun hchildren => hdeeper ?_
        obtain ⟨child, hchild, hinner⟩ := List.mem_flatMap.mp hchildren
        exact ⟨child, hchild, inner, hinner, hscope, hholds⟩
      obtain rfl := hroot scope hmem hscope hholds
      exact ⟨scope, hmem, hnode scope hmem, hscope, hholds, hroot⟩

/-- Scopes do not matter in a program that keeps to them, which then is `Unshadowed`. That a name is
declared once is not asked for: if it is declared in two scopes, it occurs behind one of them. -/
structure KeepsToScopes (program : Node) : Prop where
  /-- No parameter has the name of a declaration with a type. -/
  params : ∀ function ∈ program.subtrees, ∀ span name, identifier span name ∈ function.params →
    ¬ program.Types name
  /-- Behind its declaration a variable occurs only in the innermost scope around that. -/
  confined : ∀ declaration ∈ program.subtrees, ∀ name ∈ declaration.declared?,
    ∀ scope, program.IsInnermost scope declaration →
      ∀ span, identifier span name ∈ program.uses → declaration.span.stop ≤ span.start →
        scope.span.start ≤ span.start ∧ span.stop ≤ scope.span.stop

/-- A program that `KeepsToScopes` is `Unshadowed`: nothing occurs behind the scope that it is
declared in. -/
theorem KeepsToScopes.unshadowed (h : program.KeepsToScopes)
    (huses : ∀ use ∈ program.uses, use.span.start < use.span.stop) : program.Unshadowed := by
  refine ⟨fun scope hstands hscope declaration hdeclaration name hname => ?_, h.params⟩
  rintro ⟨span, huse, hle⟩
  obtain ⟨inner, hinner, hinnermost⟩ :=
    exists_isInnermost hstands.subtrees (mem_subtrees_self scope) hscope hdeclaration
  have hbehind := (hstands.nests.within declaration hdeclaration).2
  have hwithin := (hstands.nests.within inner hinner).2
  obtain ⟨-, hstop⟩ := h.confined declaration (hstands.subtrees _ hdeclaration) name hname inner
    hinnermost span huse (by omega)
  have hfilled : span.start < span.stop := huses _ huse
  omega

end Node

/-- The statements of a document lie in a row and are parts of its program, of which no variable is
empty. -/
theorem stands_of_readDocument {text : List Char} {reading : Reading}
    (h : readDocument text = .ok reading) :
    (∃ last, InRow 0 reading.statements last) ∧
      (∀ statement ∈ reading.statements, reading.program.Stands statement) ∧
      ∀ use ∈ reading.program.uses, use.span.start < use.span.stop := by
  obtain ⟨tokens, htokens, hcourse⟩ := exists_course h
  obtain ⟨reading', hreading', hprogram, -⟩ := exists_reading htokens
  obtain rfl := Except.ok.inj (h.symm.trans hreading')
  have hlie : Lie 0 reading.statements _ := hcourse.lie (laid_of_tokenize htokens)
  have hroot : ∃ span errors, reading.program = .program span reading.statements errors := by
    unfold Reading.statements
    rw [hprogram]
    exact ⟨_, _, rfl⟩
  obtain ⟨span, errors, hroot⟩ := hroot
  -- the program has no uses but those of its statements
  have huses : reading.program.uses = reading.statements.flatMap Node.uses := by
    rw [hroot, Node.uses_eq]
    rfl
  refine ⟨⟨_, hlie.row⟩, fun statement hstatement => ⟨hlie.nests statement hstatement, ?_, ?_⟩, ?_⟩
  · intro inner hinner
    rw [hroot, Node.subtrees_eq]
    exact List.mem_cons_of_mem _ (List.mem_flatMap.mpr ⟨statement, hstatement, hinner⟩)
  · intro use huse
    rw [huses]
    exact List.mem_flatMap.mpr ⟨statement, hstatement, huse⟩
  · intro use huse
    rw [huses] at huse
    obtain ⟨statement, hstatement, huse⟩ := List.mem_flatMap.mp huse
    exact (hlie.nests statement hstatement).lt_of_mem_uses huse

/-- Where a program `KeepsToScopes`, checks with a flat table and with a nested one report the
same. -/
theorem checkStatements_agree {text : List Char} {reading : Reading}
    (h : readDocument text = .ok reading) (hscopes : reading.program.KeepsToScopes)
    (before : List TypeMismatch) :
    (checkStatements false reading.statements before).1 = .ok () ∧
      (checkStatements true reading.statements before).1 = .ok () ∧
      (checkStatements false reading.statements before).2.mismatches =
        (checkStatements true reading.statements before).2.mismatches := by
  have hstatements := isStatement_of_readDocument h
  obtain ⟨⟨last, hrow⟩, hstands, hfilled⟩ := stands_of_readDocument h
  have hagrees := Agrees.trees hrow fun statement hstatement =>
    Agrees.of_isStatement (hscopes.unshadowed hfilled) (hstatements statement hstatement)
      (hstands statement hstatement)
  have hinitial : Agree reading.program 0 .nothing [.nothing] :=
    ⟨fun _ _ => rfl, fun _ _ => rfl⟩
  obtain ⟨-, hmismatches⟩ := hagrees .nothing [] .nothing hinitial
  obtain ⟨flat, -, hflat⟩ := Check.settles_trees (fun statement hstatement =>
    Check.settles_of_isStatement (hstatements statement hstatement)) .nothing
      ⟨.empty false, before⟩ ⟨rfl, rfl, .empty .document⟩
  obtain ⟨nested, -, hnested⟩ := Check.follows_trees (fun statement hstatement =>
    Check.scopes_of_isStatement (hstatements statement hstatement)) .nothing
      ⟨.empty true, before⟩ ⟨rfl, .cons (.empty .document) .nil⟩
  unfold checkStatements
  rw [hflat, hnested]
  exact ⟨rfl, rfl, congrArg (before ++ ·) hmismatches⟩

/-- In a function with a parameter a variable is declared and used. -/
theorem checkStatements_agree_function :
    let text := "fun f(a) \x7b var int y; y = 's'; \x7d".toList
    ∃ reading, readDocument text = .ok reading ∧ reading.program.KeepsToScopes ∧
      (checkStatements false reading.statements []).2.mismatches =
        (checkStatements true reading.statements []).2.mismatches := by
  intro text
  have htokens : tokenize text = .ok [⟨.keyword, "fun", 0, 3⟩, ⟨.identifier, "f", 4, 5⟩,
      ⟨.symbol, "(", 5, 6⟩, ⟨.identifier, "a", 6, 7⟩, ⟨.symbol, ")", 7, 8⟩,
      ⟨.symbol, "\x7b", 9, 10⟩, ⟨.keyword, "var", 11, 14⟩, ⟨.keyword, "int", 15, 18⟩,
      ⟨.identifier, "y", 19, 20⟩, ⟨.symbol, ";", 20, 21⟩, ⟨.identifier, "y", 22, 23⟩,
      ⟨.symbol, "=", 24, 25⟩, ⟨.string, "'s'", 26, 29⟩, ⟨.symbol, ";", 29, 30⟩,
      ⟨.symbol, "\x7d", 31, 32⟩] := by decide +kernel
  obtain ⟨reading, hreading, hprogram, -⟩ := exists_reading htokens
  have htree : reading.program = .program (.between 0 32)
      [.functionDeclaration (.between 0 32) (.identifier (.between 4 5) "f")
        [.identifier (.between 6 7) "a"] (.block (.between 9 32)
          [.variableDeclaration (.between 11 21) (some "int") (.identifier (.between 19 20) "y")
            .absent,
          .assignment (.between 22 30) "=" (.identifier (.between 22 23) "y")
            (.literal (.between 26 29) (.ofQuoted "'s'") "'s'" "string")])] [] := hprogram
  have hscopes : reading.program.KeepsToScopes := by
    rw [htree]
    refine ⟨by simp [Node.subtrees_eq, Node.children, Node.present, Node.isAbsent, Node.params,
      Node.Types, Node.typed?], ?_⟩
    intro declaration _ name _ scope hscope span huse _
    -- the one variable is used in the body, and so in both scopes
    obtain ⟨rfl, rfl⟩ : span = .between 22 23 ∧ name = "y" := by
      simpa [Node.uses_eq, Node.users, Node.present, Node.isAbsent, Node.isIdentifier,
        Node.children] using huse
    have hmem := hscope.mem
    have hkind := hscope.isScope
    simp only [Node.subtrees_eq, Node.children, Node.present, Node.isAbsent, List.flatMap_cons,
      List.flatMap_nil, List.filter_cons, List.filter_nil, List.append_nil, List.mem_cons,
      List.cons_append, List.nil_append, List.not_mem_nil, or_false, Bool.not_true,
      Bool.false_eq_true, if_false] at hmem
    rcases hmem with rfl | rfl | rfl | rfl | rfl | rfl | rfl | rfl | rfl | rfl <;>
      first | decide | cases hkind
  exact ⟨reading, hreading, hscopes, (checkStatements_agree hreading hscopes []).2.2⟩

end NeutronLang
