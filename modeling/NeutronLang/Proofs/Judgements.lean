import Mathlib.Logic.Function.Basic
import NeutronLang.Proofs.Bindings
import NeutronLang.Proofs.StructuralTypes
import NeutronLang.Typing.Checker

/-!
# What a check makes of a declaration or an assignment

The rules by which a binding is judged, given the types of the variables that are known
(`Node.judgement`), and the steps of a check compared with functions of what is known
(`Check.Follows`). Which variables are known at a place, a flat and a nested table say in different
ways; so the relation between a table and what is known is a parameter here, and all that is used of
it is that it gives the types of variables and that definitions keep it.

Expressions are no step at all, however long their chains of operators are
(`Check.tree_of_isExpression`).
-/

namespace NeutronLang

open Grammar Rendering

/-! ## Known variables -/

/-- The variables that are known, by their names. Bindings add to them through `Known.settle`. -/
abbrev Known := String → Option Symbol

/-- No variable is `Known`. -/
def Known.nothing : Known := fun _ => none

/-- A variable becomes known: `symbol`, in the place of any other of its name. -/
def Known.define (known : Known) (symbol : Symbol) : Known :=
  Function.update known symbol.name (some symbol)

/-- The type of a variable, if it is known. -/
def Known.typeOf? (known : Known) (name : String) : Option TypeTag := (known name).map (·.type)

/-- A scope has the variables that are `known` and no others, each of them once. -/
structure Scope.Holds (scope : Scope) (known : Known) : Prop where
  nodup : (scope.symbols.map (·.name)).Nodup
  known_iff : ∀ name symbol, known name = some symbol ↔
    symbol ∈ scope.symbols ∧ symbol.name = name

namespace Scope.Holds

variable {scope : Scope} {known : Known}

/-- `Scope.empty` holds nothing. -/
theorem empty (kind : ScopeKind) : (Scope.empty kind).Holds .nothing :=
  ⟨.nil, by simp [Known.nothing, Scope.empty]⟩

/-- `find?` in a scope gives what is known. -/
theorem find?_eq (h : scope.Holds known) (name : String) : scope.find? name = known name := by
  cases hknown : known name with
  | none =>
    refine List.find?_eq_none.mpr fun symbol hsymbol hname => ?_
    rw [(h.known_iff name symbol).mpr ⟨hsymbol, beq_iff_eq.mp hname⟩] at hknown
    cases hknown
  | some symbol =>
    obtain ⟨hsymbol, rfl⟩ := (h.known_iff name symbol).mp hknown
    cases hfind : scope.find? symbol.name with
    | none =>
      unfold Scope.find? at hfind
      exact absurd (beq_self_eq_true _) (List.find?_eq_none.mp hfind symbol hsymbol)
    | some found =>
      -- Two variables of one name would both be the one that is known.
      have hfound := (h.known_iff symbol.name found).mpr
        ⟨List.mem_of_find?_eq_some hfind, beq_iff_eq.mp (List.find?_some hfind :)⟩
      exact hfound.symm.trans hknown

/-- `define` in a scope makes its variable known. -/
theorem define (h : scope.Holds known) (symbol : Symbol) :
    (scope.define symbol).Holds (known.define symbol) where
  nodup := by
    have hnot : symbol.name ∉
        (scope.symbols.filter (·.name != symbol.name)).map (·.name) := by
      simp
    exact List.nodup_cons.mpr ⟨hnot, h.nodup.sublist (List.filter_sublist.map _)⟩
  known_iff name found := by
    unfold Known.define Scope.define
    -- the variable of the name is the new one, and those of other names are kept
    by_cases hname : name = symbol.name
    · subst hname
      simp only [Function.update_self, Option.some.injEq, List.mem_cons, List.mem_filter,
        bne_iff_ne]
      constructor
      · rintro rfl
        exact ⟨.inl rfl, rfl⟩
      · rintro ⟨rfl | ⟨-, hne⟩, heq⟩
        · rfl
        · exact absurd heq hne
    · simp only [Function.update_of_ne hname, h.known_iff, List.mem_cons, List.mem_filter,
        bne_iff_ne]
      constructor
      · rintro ⟨hfound, rfl⟩
        exact ⟨.inr ⟨hfound, hname⟩, rfl⟩
      · rintro ⟨rfl | ⟨hfound, -⟩, rfl⟩
        · exact absurd rfl hname
        · exact ⟨hfound, rfl⟩

end Scope.Holds

/-! ## Judgements -/

/-- What a binding comes to, by `Node.judgement`. -/
inductive Judgement where
  | defines (symbol : Symbol)
  | mismatch (mismatch : TypeMismatch)
  | fits
deriving DecidableEq

/--
How a binding is judged, given the types of the variables that are known. A declaration without a
type takes any value, one without a value is of its type. Otherwise a value that fits the declared
type defines the variable, and one that does not is a mismatch and defines nothing. An assignment
defines nothing; its value has to fit the type of the variable, if it is known and not any.
-/
def Node.judgement (typeOf? : String → Option TypeTag) : Node → Judgement
  | .variableDeclaration span none (.identifier _ name) _ =>
    .defines ⟨name, .any, some span.start⟩
  | .variableDeclaration span (some type) (.identifier _ name) init =>
    match TypeTag.ofName? type with
    | none => .fits
    | some declared =>
      if init.isAbsent || declared.accepts (init.typeUnder typeOf?) then
        .defines ⟨name, declared, some span.start⟩
      else .mismatch ⟨declared, init.typeUnder typeOf?, .declaration name, init.span⟩
  | .assignment _ _ (.identifier _ name) value =>
    match typeOf? name with
    | none | some .any => .fits
    | some declared =>
      if declared.accepts (value.typeUnder typeOf?) then .fits
      else .mismatch ⟨declared, value.typeUnder typeOf?, .assignment name, value.span⟩
  | _ => .fits

/-- What is known after a `Judgement`, and the mismatch if it is one. -/
def Known.judged (known : Known) : Judgement → Known × List TypeMismatch
  | .defines symbol => (known.define symbol, [])
  | .mismatch mismatch => (known, [mismatch])
  | .fits => (known, [])

/-- `accepts` holds of what has no value, whatever the type. -/
theorem TypeTag.accepts_absent (declared : TypeTag) (typeOf? : String → Option TypeTag) :
    declared.accepts (Node.absent.typeUnder typeOf?) = true := by
  cases declared <;> rfl

/-- A value that a type does not accept is there. -/
theorem Node.present_of_accepts_eq_false {declared : TypeTag} {typeOf? : String → Option TypeTag}
    {value : Node} (h : declared.accepts (value.typeUnder typeOf?) = false) :
    Node.present [value] = [value] := by
  cases value
  case absent => exact absurd (TypeTag.accepts_absent declared typeOf?) (by simp [h])
  all_goals rfl

/-- A binding that is a mismatch has a value that does not fit the type of its variable: the one it
is declared with or, for an assignment, the one that is known. -/
theorem Node.cases_of_judgement {typeOf? : String → Option TypeTag} {node : Node}
    {mismatch : TypeMismatch} (h : node.judgement typeOf? = .mismatch mismatch) :
    ∃ span nameSpan name value declared, declared.accepts (value.typeUnder typeOf?) = false ∧
      ((∃ type, node = .variableDeclaration span (some type) (.identifier nameSpan name) value ∧
          TypeTag.ofName? type = some declared ∧
          mismatch = ⟨declared, value.typeUnder typeOf?, .declaration name, value.span⟩) ∨
        ∃ operator, node = .assignment span operator (.identifier nameSpan name) value ∧
          typeOf? name = some declared ∧
          mismatch = ⟨declared, value.typeUnder typeOf?, .assignment name, value.span⟩) := by
  unfold judgement at h
  split at h
  · cases h
  · next span type nameSpan name init =>
    split at h
    · cases h
    · next declared hdeclared =>
      split at h
      · cases h
      · next hfits =>
        simp only [Bool.or_eq_true, not_or, Bool.not_eq_true] at hfits
        exact ⟨span, nameSpan, name, init, declared, hfits.2,
          .inl ⟨type, rfl, hdeclared, (Judgement.mismatch.inj h).symm⟩⟩
  · next span operator nameSpan name value =>
    split at h
    · cases h
    · cases h
    · next declared _ hdeclared =>
      split at h
      · cases h
      · next hfits =>
        exact ⟨span, nameSpan, name, value, declared, Bool.eq_false_iff.mpr hfits,
          .inr ⟨operator, rfl, hdeclared, (Judgement.mismatch.inj h).symm⟩⟩
  · cases h

/-- The mismatch of a binding starts at one of its `marks`. -/
theorem Node.judgement_marks {typeOf? : String → Option TypeTag} {node : Node}
    {mismatch : TypeMismatch} (h : node.judgement typeOf? = .mismatch mismatch) :
    ([mismatch].map (·.span.start)).Sublist node.marks := by
  obtain ⟨span, nameSpan, name, value, declared, hfits, hbinding⟩ := cases_of_judgement h
  have hvalue := present_of_accepts_eq_false hfits
  rcases hbinding with ⟨type, rfl, -, rfl⟩ | ⟨operator, rfl, -, rfl⟩
  all_goals
    rw [marks, hvalue]
    exact List.sublist_cons_self _ _

/-! ## The fold over bindings -/

/-- What is known after bindings one after the other (`Known.judged`), and the mismatches among
them. -/
def Known.settle (known : Known) : List Node → Known × List TypeMismatch
  | [] => (known, [])
  | binding :: bindings =>
    let (after, mismatches) := known.judged (binding.judgement known.typeOf?)
    let (last, more) := after.settle bindings
    (last, mismatches ++ more)

/-- `settle` goes through bindings one after the other. -/
theorem Known.settle_append (known : Known) (bindings more : List Node) :
    known.settle (bindings ++ more) =
      (((known.settle bindings).1.settle more).1,
        (known.settle bindings).2 ++ ((known.settle bindings).1.settle more).2) := by
  induction bindings generalizing known with
  | nil => rfl
  | cons binding bindings ih => simp only [List.cons_append, settle, ih, List.append_assoc]

/-- `settle` on a single binding is its judgement. -/
theorem Known.settle_singleton (known : Known) (binding : Node) :
    known.settle [binding] = known.judged (binding.judgement known.typeOf?) := by
  simp [settle]

/-- The mismatches that `settle` finds start at `marks` of the bindings, in their order. -/
theorem Known.settle_marks (known : Known) (bindings : List Node) :
    ((known.settle bindings).2.map (·.span.start)).Sublist (bindings.flatMap Node.marks) := by
  induction bindings generalizing known with
  | nil => exact .slnil
  | cons binding bindings ih =>
    rw [settle, List.flatMap_cons, List.map_append]
    refine List.Sublist.append ?_ (ih _)
    cases hjudgement : binding.judgement known.typeOf? with
    | mismatch mismatch => exact Node.judgement_marks hjudgement
    | defines | fits => exact List.nil_sublist _

/-! ## Judgements as steps -/

/-- The state of a check after a `Judgement`. -/
def Checking.judged (state : Checking) : Judgement → Checking
  | .defines symbol => { state with table := state.table.define symbol }
  | .mismatch mismatch => { state with mismatches := state.mismatches ++ [mismatch] }
  | .fits => state

namespace Check

/-! ## Expressions -/

/-- `trees` of which none is a step are no step. -/
theorem trees_eq_pure {nodes : List Node} (h : ∀ node ∈ nodes, tree node = pure ()) :
    trees nodes = pure () := by
  induction nodes with
  | nil => rw [trees]
  | cons node nodes ih =>
    obtain ⟨hnode, hnodes⟩ := List.forall_mem_cons.mp h
    rw [trees, hnode, pure_bind, ih hnodes]

/-- `operands` checks the first operand of a chain before the others, chain or not. -/
theorem operands_cons (node : Node) (pending : List Node) :
    operands (node :: pending) = (do tree node; operands pending) := by
  induction node using Node.subtrees.induct generalizing pending with
  | case1 node ih =>
    cases node with
    | binary span operator left right | logical span operator left right =>
      have hleft := ih ⟨left, by simp [Node.children]⟩
      have hright := ih ⟨right, by simp [Node.children]⟩
      dsimp only at hleft hright
      rw [operands, tree, hleft, hright, hleft, hright, operands, bind_assoc, bind_assoc,
        pure_bind]
    | _ => rw [operands] <;> simp

/-- `operands` of a chain are checked like `trees`. -/
theorem operands_eq_trees (nodes : List Node) : operands nodes = trees nodes := by
  induction nodes with
  | nil => rw [operands, trees]
  | cons node nodes ih => rw [operands_cons, trees, ih]

/-- `tree` of an expression is no step of a check. -/
theorem tree_of_isExpression {node : Node} (h : IsExpression node) : tree node = pure () := by
  induction h with
  | number | string | true | false | nil | name => rw [tree]
  | binary _ _ _ _ ihleft ihright | logical _ _ _ ihleft ihright =>
    rw [tree, operands_eq_trees]
    exact trees_eq_pure (by simp [ihleft, ihright])
  | unary _ _ ih => rw [tree, ih]
  | call _ _ _ ihcallee ih => rw [tree, ihcallee, pure_bind, trees_eq_pure ih]
  | member _ _ _ ih => rw [tree, ih, pure_bind, tree]
  | array _ ih => rw [tree, trees_eq_pure ih]
  | object _ _ ih =>
    rw [tree]
    refine trees_eq_pure fun property hproperty => ?_
    obtain ⟨entry, hentry, rfl⟩ := List.mem_map.mp hproperty
    rw [Entry.node, tree, tree, pure_bind, ih entry hentry]

/-- `tree` of an expression that may be left out is no step of a check. -/
theorem tree_of_absent_or_isExpression {node : Node} (h : node = .absent ∨ IsExpression node) :
    tree node = pure () := by
  rcases h with rfl | h
  · rw [tree]
  · exact tree_of_isExpression h

/-! ## Bindings -/

/-- `declaredType` finds a type for each of the `typeKeywords`. -/
theorem exists_declaredType_eq {type : String} (h : type ∈ typeKeywords) :
    ∃ tag, TypeTag.ofName? type = some tag ∧ declaredType type = pure tag := by
  have hall : ∀ type ∈ typeKeywords, (TypeTag.ofName? type).isSome := by decide
  obtain ⟨tag, htag⟩ := Option.isSome_iff_exists.mp (hall type h)
  refine ⟨tag, htag, ?_⟩
  rw [declaredType, TypeTag.ofName, htag]

/-- `>>=` runs the second step on the state of the first, unless an obstacle stops both. -/
theorem run_bind {α β : Type} (first : Check α) (next : α → Check β) (state : Checking) :
    (first >>= next).run state = match first.run state with
      | (.ok x, middle) => (next x).run middle
      | (.error obstacle, middle) => (.error obstacle, middle) := by
  show StateT.run (first >>= next).run state = _
  have hrun : StateT.run first.run state = first.run state := rfl
  rw [ExceptT.run_bind, StateT.run_bind, hrun]
  rcases first.run state with ⟨_ | _, middle⟩ <;> rfl

/-- `>>=` runs the second step on the state of the first where that ends. -/
theorem run_bind_of_ok {first second : Check Unit} {state middle : Checking}
    (h : first.run state = (.ok (), middle)) :
    (do first; second).run state = second.run middle := by
  rw [run_bind, h]

/-- `table` hands the table of the state on to what depends on it. -/
theorem run_table_bind {α : Type} (next : SymbolTable → Check α) (state : Checking) :
    (table >>= next).run state = (next state.table).run state := rfl

/-- `inScope` takes its step in a table that is one scope deeper, and leaves one that is not. -/
theorem run_inScope (kind : ScopeKind) (step : Check Unit) (state : Checking) :
    (inScope kind step).run state =
      ((step.run { state with table := state.table.enter kind }).1,
        { (step.run { state with table := state.table.enter kind }).2 with
          table := (step.run { state with table := state.table.enter kind }).2.table.exit }) := rfl

/-- `tree` of a declaration judges it by the types in the table. -/
theorem run_tree_of_isDeclaration {node : Node} (h : IsDeclaration node) (state : Checking) :
    (tree node).run state = (.ok (), state.judged (node.judgement state.table.typeOf?)) := by
  cases h with
  | @mk span nameSpan type name init htype _ hinit =>
    cases type with
    | none =>
      rw [tree, tree_of_absent_or_isExpression hinit]
      rfl
    | some type =>
      obtain ⟨tag, htag, hdeclared⟩ := exists_declaredType_eq (htype type rfl)
      rw [tree, hdeclared, pure_bind, declare, Node.judgement, htag]
      cases init.isAbsent
      · rw [if_neg Bool.false_ne_true, run_table_bind, SymbolTable.infer_eq_typeUnder]
        simp only [Bool.false_or]
        cases tag.accepts (init.typeUnder state.table.typeOf?) <;> rfl
      · rfl

/-- `tree` of an assignment judges it by the types in the table. -/
theorem run_tree_of_isAssignment {node : Node} (h : IsAssignment node) (state : Checking) :
    (tree node).run state = (.ok (), state.judged (node.judgement state.table.typeOf?)) := by
  cases h with
  | @mk span nameSpan name value _ hvalue =>
    rw [tree, tree_of_isExpression hvalue, bind_pure_unit, judge, run_table_bind, Node.judgement]
    cases htype : state.table.typeOf? name with
    | none => rfl
    | some declared =>
      cases declared
      case any => rfl
      all_goals
        simp only [SymbolTable.infer_eq_typeUnder]
        cases TypeTag.accepts _ (value.typeUnder state.table.typeOf?) <;> rfl

/-! ## Steps and what is known -/

/-- A step of a check ends, and does to the table and to the mismatches what `result` does to the
variables that are known. -/
def Follows (Shows : Known → SymbolTable → Prop) (step : Check Unit)
    (result : Known → Known × List TypeMismatch) : Prop :=
  ∀ known state, Shows known state.table → ∃ table, Shows (result known).1 table ∧
    step.run state = (.ok (), ⟨table, state.mismatches ++ (result known).2⟩)

section

variable {Shows : Known → SymbolTable → Prop} {first second : Check Unit}
  {result next : Known → Known × List TypeMismatch}

/-- `pure ()` follows no change. -/
theorem follows_pure : Follows Shows (pure ()) fun known => (known, []) := by
  intro known state hshows
  refine ⟨state.table, hshows, ?_⟩
  rw [List.append_nil]
  rfl

/-- Steps one after the other follow what their functions do one after the other. -/
theorem Follows.bind (h : Follows Shows first result) (hnext : Follows Shows second next) :
    Follows Shows (do first; second) fun known =>
      ((next (result known).1).1, (result known).2 ++ (next (result known).1).2) := by
  intro known state hshows
  obtain ⟨table, hshows, hfirst⟩ := h known state hshows
  obtain ⟨last, hlast, hsecond⟩ := hnext _ ⟨table, state.mismatches ++ (result known).2⟩ hshows
  refine ⟨last, hlast, ?_⟩
  rw [run_bind_of_ok hfirst, hsecond, List.append_assoc]

end

/-- `tree` of a binding follows its judgement by the types of the variables that are known. -/
theorem follows_binding {Shows : Known → SymbolTable → Prop}
    {typesOf : Known → String → Option TypeTag}
    (htypes : ∀ known table, Shows known table → table.typeOf? = typesOf known)
    (hdefine : ∀ known table symbol, Shows known table →
      Shows (known.define symbol) (table.define symbol))
    {node : Node} (h : IsDeclaration node ∨ IsAssignment node) :
    Follows Shows (tree node) fun known => known.judged (node.judgement (typesOf known)) := by
  intro known state hshows
  have hrun : (tree node).run state =
      (.ok (), state.judged (node.judgement (typesOf known))) := by
    rw [← htypes known state.table hshows]
    exact h.elim (run_tree_of_isDeclaration · state) (run_tree_of_isAssignment · state)
  rw [hrun]
  beta_reduce
  cases node.judgement (typesOf known) with
  | defines symbol =>
    exact ⟨_, hdefine _ _ symbol hshows, by simp [Checking.judged, Known.judged]⟩
  | mismatch mismatch => exact ⟨_, hshows, rfl⟩
  | fits => exact ⟨_, hshows, by simp [Checking.judged, Known.judged]⟩

/-- The first clause of a loop is a binding or, if it is there, an expression. -/
theorem initClause_cases {node : Node}
    (h : node = .absent ∨ IsDeclaration node ∨ IsExpression node ∨ IsAssignment node) :
    (node = .absent ∨ IsExpression node) ∨ (IsDeclaration node ∨ IsAssignment node) := by
  rcases h with h | h | h | h
  · exact .inl (.inl h)
  · exact .inr (.inl h)
  · exact .inl (.inr h)
  · exact .inr (.inr h)

/-- The last clause of a loop is a binding or, if it is there, an expression. -/
theorem updateClause_cases {node : Node}
    (h : node = .absent ∨ IsExpression node ∨ IsAssignment node) :
    (node = .absent ∨ IsExpression node) ∨ (IsDeclaration node ∨ IsAssignment node) := by
  rcases h with h | h | h
  · exact .inl (.inl h)
  · exact .inl (.inr h)
  · exact .inr (.inr h)

end Check

end NeutronLang
