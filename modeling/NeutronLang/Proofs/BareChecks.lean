import NeutronLang.Proofs.BareRules
import NeutronLang.Proofs.Judgements

/-!
# Checks without spans

The check of a tree never asks where anything is: what it finds in a tree without spans is what it
finds in the tree, but for the places where variables are declared and values do not fit. This holds
of any tree, whether or not something in it stops the check.
-/

namespace NeutronLang

open Node

/-! ## What a check keeps -/

/-- The variable, declared nowhere in particular. -/
def Symbol.bare (symbol : Symbol) : Symbol :=
  { symbol with offset := symbol.offset.map fun _ => 0 }

/-- The scope with its variables declared nowhere in particular (`Symbol.bare`). -/
def Scope.bare (scope : Scope) : Scope :=
  { scope with symbols := scope.symbols.map Symbol.bare }

/-- The table with its variables declared nowhere in particular (`Symbol.bare`). -/
def SymbolTable.bare (table : SymbolTable) : SymbolTable :=
  ⟨table.nested, table.inner.map Scope.bare, table.document.bare⟩

/-- The mismatch without the span of its value. -/
def TypeMismatch.bare (mismatch : TypeMismatch) : TypeMismatch :=
  { mismatch with span := .point 0 }

/-- The state of a check without spans, in its table (`SymbolTable.bare`) and its mismatches. -/
def Checking.bare (state : Checking) : Checking :=
  ⟨state.table.bare, state.mismatches.map TypeMismatch.bare⟩

/-- The obstacle without spans. -/
def Obstacle.bare : Obstacle → Obstacle
  | unknownType fault => unknownType fault
  | notName found => notName found.withoutSpans
  | notBlock found => notBlock found.withoutSpans

/-- `find?` in a bare scope finds a variable by its name, wherever it is declared. -/
theorem Scope.find?_bare (scope : Scope) (name : String) :
    scope.bare.find? name = (scope.find? name).map Symbol.bare :=
  List.find?_map ..

/-- `define` in a bare scope puts a variable in the place of another one, wherever the two are
declared. -/
theorem Scope.define_bare (scope : Scope) (symbol : Symbol) :
    scope.bare.define symbol.bare = (scope.define symbol).bare := by
  unfold Scope.define Scope.bare
  dsimp only
  rw [List.map_cons, List.filter_map]
  rfl

namespace SymbolTable

variable (table : SymbolTable)

/-- `define` in a bare table is that in the table. -/
theorem define_bare (symbol : Symbol) :
    table.bare.define symbol.bare = (table.define symbol).bare := by
  obtain ⟨nested, inner, document⟩ := table
  cases inner with
  | nil => exact congrArg (SymbolTable.mk nested []) (document.define_bare symbol)
  | cons scope outer =>
    exact congrArg (fun scope => SymbolTable.mk nested (scope :: _) _) (scope.define_bare symbol)

/-- `enter` in a bare table is that in the table. -/
theorem enter_bare (kind : ScopeKind) : table.bare.enter kind = (table.enter kind).bare := by
  unfold enter bare
  dsimp only
  split <;> rfl

/-- `exit` in a bare table is that in the table. -/
theorem exit_bare : table.bare.exit = table.exit.bare := by
  unfold exit bare
  dsimp only
  split
  · rw [List.map_tail]
  · rfl

/-- `typeOf?` in a bare table knows the same types. -/
theorem typeOf?_bare : table.bare.typeOf? = table.typeOf? := by
  funext name
  have hscopes : table.bare.scopes = table.scopes.map Scope.bare := by
    unfold scopes bare
    rw [List.map_append, List.map_singleton]
  unfold typeOf? lookup?
  rw [hscopes, List.findSome?_map]
  induction table.scopes with
  | nil => rfl
  | cons scope scopes ih =>
    rw [List.findSome?_cons, List.findSome?_cons, Function.comp_apply, Scope.find?_bare]
    cases scope.find? name with
    | none => exact ih
    | some symbol => rfl

end SymbolTable

/-- `typeUnder` of a tree does not depend on its spans. -/
theorem Node.typeUnder_withoutSpans (typeOf? : String → Option TypeTag) :
    (node : Node) → node.withoutSpans.typeUnder typeOf? = node.typeUnder typeOf?
  | .binary _ _ left right | .logical _ _ left right => by
    have hleft := typeUnder_withoutSpans typeOf? left
    have hright := typeUnder_withoutSpans typeOf? right
    simp only [withoutSpans] at hleft hright
    simp only [withoutSpans, mapSpans, typeUnder, hleft, hright]
  | .unary _ _ operand => by
    have hoperand := typeUnder_withoutSpans typeOf? operand
    simp only [withoutSpans] at hoperand
    simp only [withoutSpans, mapSpans, typeUnder, hoperand]
  | .absent | .program .. | .variableDeclaration .. | .ifStatement .. | .whileStatement ..
  | .forStatement .. | .block .. | .functionDeclaration .. | .classDeclaration ..
  | .returnStatement .. | .expressionStatement .. | .assignment .. | .call .. | .member ..
  | .array .. | .object .. | .property .. | .identifier .. | .literal .. => by
    simp only [withoutSpans, mapSpans, typeUnder]

/-- `infer` in a bare table finds the type that it finds in the table. -/
theorem SymbolTable.infer_bare (table : SymbolTable) (node : Node) :
    table.bare.infer node.withoutSpans = table.infer node := by
  rw [infer_eq_typeUnder, infer_eq_typeUnder, typeOf?_bare, typeUnder_withoutSpans]

/-! ## Steps -/

namespace Check

/-- Whether a step ends or is stopped, without spans; `f` takes them off what it gives. -/
def bareResult {α β : Type} (f : α → β) : Except Obstacle α → Except Obstacle β
  | .ok x => .ok (f x)
  | .error obstacle => .error obstacle.bare

/-- The step `bared` does without spans what `step` does with them. -/
def Bares {α β : Type} (f : α → β) (step : Check α) (bared : Check β) : Prop :=
  ∀ state, bared.run state.bare = (bareResult f (step.run state).1, (step.run state).2.bare)

variable {α β γ δ : Type} {f : α → β} {g : γ → δ}

/-- `>>=` bares if both of its steps do. -/
theorem Bares.bind {step : Check α} {bared : Check β} {next : α → Check γ} {next' : β → Check δ}
    (h : Bares f step bared) (hnext : ∀ x, Bares g (next x) (next' (f x))) :
    Bares g (step >>= next) (bared >>= next') := by
  intro state
  rw [run_bind, run_bind, h state]
  generalize step.run state = outcome
  obtain ⟨result, middle⟩ := outcome
  cases result with
  | ok x => exact hnext x middle
  | error obstacle => rfl

/-- `pure` bares if its answers do. -/
theorem bares_pure {x : α} {y : β} (h : y = f x) : Bares f (pure x) (pure y) := by
  subst h
  exact fun _ => rfl

/-- `throw` bares if its obstacle does. -/
theorem bares_throw (f : α → β) {obstacle obstacle' : Obstacle} (h : obstacle' = obstacle.bare) :
    Bares f (throw obstacle) (throw obstacle') := by
  subst h
  exact fun _ => rfl

/-- `table` bares: the table is the one without places. -/
theorem bares_table : Bares SymbolTable.bare table table := fun _ => rfl

/-- `define` bares, wherever the variable is declared. -/
theorem bares_define (name : String) (type : TypeTag) (offset : Int) :
    Bares id (define name type offset) (define name type 0) := by
  intro state
  have hdefine := state.table.define_bare ⟨name, type, some offset⟩
  exact congrArg (fun table => (Except.ok (), Checking.mk table _)) hdefine

/-- `note` bares if its mismatch does. -/
theorem bares_note {mismatch mismatch' : TypeMismatch} (h : mismatch' = mismatch.bare) :
    Bares id (note mismatch) (note mismatch') := by
  subst h
  intro state
  have hnote : state.bare.mismatches ++ [mismatch.bare] =
      (state.mismatches ++ [mismatch]).map TypeMismatch.bare := by
    rw [List.map_append]
    rfl
  exact congrArg (fun mismatches => (Except.ok (), Checking.mk _ mismatches)) hnote

/-- `inScope` bares if its step does. -/
theorem Bares.inScope {step bared : Check Unit} (h : Bares id step bared) (kind : ScopeKind) :
    Bares id (Check.inScope kind step) (Check.inScope kind bared) := by
  intro state
  have hinner := h { state with table := state.table.enter kind }
  have hentered : Checking.bare { state with table := state.table.enter kind } =
      { state.bare with table := state.bare.table.enter kind } := by
    exact congrArg (Checking.mk · _) (state.table.enter_bare kind).symm
  rw [hentered] at hinner
  show ((bared.run { state.bare with table := state.bare.table.enter kind }).1,
    Checking.mk (bared.run { state.bare with table := state.bare.table.enter kind }).2.table.exit
      (bared.run { state.bare with table := state.bare.table.enter kind }).2.mismatches) = _
  rw [hinner]
  exact congrArg (fun table => (_, Checking.mk table _)) (SymbolTable.exit_bare _)

/-- `declaredType` bares. -/
theorem bares_declaredType (name : String) : Bares id (declaredType name) (declaredType name) := by
  unfold declaredType
  cases TypeTag.ofName name with
  | ok type => exact bares_pure rfl
  | error fault => exact bares_throw id rfl

/-- `defineParams` bares. -/
theorem bares_defineParams (params : List Node) :
    Bares id (defineParams params) (defineParams (params.map withoutSpans)) := by
  refine bares_table.bind fun table => ?_
  dsimp only [SymbolTable.bare]
  split
  · induction params with
    | nil => exact bares_pure rfl
    | cons param params ih =>
      have hparam : Bares id (defineParam param) (defineParam param.withoutSpans) := by
        cases param with
        | identifier span name => exact bares_define name .any span.start
        | _ => exact bares_throw id rfl
      exact hparam.bind fun _ => ih
  · exact bares_pure rfl

/-- `declare` bares. -/
theorem bares_declare (name : String) (start : Int) (declared : TypeTag) (init : Node) :
    Bares id (declare name start declared init) (declare name 0 declared init.withoutSpans) := by
  have habsent : init.withoutSpans.isAbsent = init.isAbsent := isAbsent_mapSpans _ init
  unfold declare
  rw [habsent]
  split
  · exact bares_define name declared start
  · refine bares_table.bind fun table => ?_
    dsimp only
    rw [SymbolTable.infer_bare]
    split
    · exact bares_define name declared start
    · refine bares_note ?_
      rw [Grammar.span_withoutSpans]
      rfl

/-- `judge` bares. -/
theorem bares_judge (name : String) (value : Node) :
    Bares id (judge name value) (judge name value.withoutSpans) := by
  refine bares_table.bind fun table => ?_
  rw [SymbolTable.typeOf?_bare]
  split
  · exact bares_pure rfl
  · exact bares_pure rfl
  · dsimp only
    rw [SymbolTable.infer_bare]
    split
    · refine bares_note ?_
      rw [Grammar.span_withoutSpans]
      rfl
    · exact bares_pure rfl

mutual

/-- `tree` bares: a tree is checked in the same way without its spans. -/
theorem bares_tree : (node : Node) → Bares id (tree node) (tree node.withoutSpans)
  | .absent | .identifier .. | .literal .. => by
    simp only [withoutSpans, mapSpans, tree]
    exact bares_pure rfl
  | .variableDeclaration span type name init => by
    cases name with
    | identifier _ name =>
      cases type <;> simp only [withoutSpans, mapSpans, tree]
      case none => exact (bares_define name .any span.start).bind fun _ => bares_tree init
      case some type =>
        exact (bares_declaredType type).bind fun declared =>
          bares_declare name span.start declared init
    | _ =>
      simp only [withoutSpans, mapSpans, tree]
      exact bares_throw id rfl
  | .assignment _ _ target value => by
    cases target with
    | identifier _ name =>
      simp only [withoutSpans, mapSpans, tree]
      exact (bares_judge name value).bind fun _ => bares_tree value
    | _ =>
      simp only [withoutSpans, mapSpans, tree]
      exact bares_throw id rfl
  | .forStatement _ init test update body => by
    simp only [withoutSpans, mapSpans, tree]
    exact Bares.inScope ((bares_tree init).bind fun _ => (bares_tree test).bind fun _ =>
      (bares_tree update).bind fun _ => bares_tree body) _
  | .functionDeclaration _ _ params body => by
    cases body with
    | block _ nodes =>
      simp only [withoutSpans, mapSpans, mapSpansOfAll_eq_map, tree]
      exact Bares.inScope ((bares_defineParams params).bind fun _ => bares_trees nodes) _
    | _ =>
      simp only [withoutSpans, mapSpans, mapSpansOfAll_eq_map, tree]
      refine Bares.inScope ((bares_defineParams params).bind fun _ => bares_throw id ?_) _
      simp only [Obstacle.bare, withoutSpans, mapSpans, mapSpansOfAll_eq_map]
  | .classDeclaration _ _ body => by
    cases body with
    | block _ nodes =>
      simp only [withoutSpans, mapSpans, mapSpansOfAll_eq_map, tree]
      exact (bares_trees nodes).inScope _
    | _ =>
      simp only [withoutSpans, mapSpans, tree]
      exact bares_throw id rfl
  | .block _ nodes => by
    simp only [withoutSpans, mapSpans, mapSpansOfAll_eq_map, tree]
    exact (bares_trees nodes).inScope _
  | .program _ nodes _ | .array _ nodes | .object _ nodes => by
    simp only [withoutSpans, mapSpans, mapSpansOfAll_eq_map, tree]
    exact bares_trees nodes
  | .call _ callee arguments => by
    simp only [withoutSpans, mapSpans, mapSpansOfAll_eq_map, tree]
    exact (bares_tree callee).bind fun _ => bares_trees arguments
  | .ifStatement _ test consequent alternate => by
    simp only [withoutSpans, mapSpans, tree]
    exact (bares_tree test).bind fun _ => (bares_tree consequent).bind fun _ => bares_tree alternate
  | .whileStatement _ first second | .member _ first second | .property _ first second
  | .binary _ _ first second | .logical _ _ first second => by
    -- the operands of a chain are checked one after the other
    simp only [withoutSpans, mapSpans, tree, operands_eq_trees, trees, bind_pure_unit]
    exact (bares_tree first).bind fun _ => bares_tree second
  | .returnStatement _ node | .expressionStatement _ node | .unary _ _ node => by
    simp only [withoutSpans, mapSpans, tree]
    exact bares_tree node

/-- `trees` bare, one after the other. -/
theorem bares_trees : (nodes : List Node) → Bares id (trees nodes) (trees (nodes.map withoutSpans))
  | [] => by
    rw [List.map_nil, trees]
    exact bares_pure rfl
  | node :: nodes => by
    rw [List.map_cons, trees, trees]
    exact (bares_tree node).bind fun _ => bares_trees nodes

end

end Check

end NeutronLang
