import NeutronLang.Proofs.Judgements

/-!
# Scopes are given back

A check defines variables in the scope that it finds open, and each scope that it opens it closes
again, also where it meets an obstacle inside. `SymbolTable.Grows` says that of two tables: the
second is the first with more defined in its current scope, and nothing else is different. Every
step of a check lets the table grow (`Check.grows_tree`), whether it ends or is stopped; a step in a
scope of its own gives the table back as it was, because what it defines goes with that scope.
-/

namespace NeutronLang

/-! ## Tables that grow -/

namespace SymbolTable

/-- A table grows to another one by definitions in its `current` scope. -/
def Grows (before after : SymbolTable) : Prop :=
  ∃ symbols : List Symbol, after = symbols.foldl define before

/-- `define` adds to the current scope. -/
theorem current_define (table : SymbolTable) (symbol : Symbol) :
    (table.define symbol).current = table.current.define symbol := by
  obtain ⟨nested, inner, document⟩ := table
  cases inner <;> rfl

/-- `define` leaves the scopes around the current one alone. -/
theorem tail_scopes_define (table : SymbolTable) (symbol : Symbol) :
    (table.define symbol).scopes.tail = table.scopes.tail := by
  obtain ⟨nested, inner, document⟩ := table
  cases inner <;> rfl

/-- `define` opens no scope and closes none. -/
theorem depth_define (table : SymbolTable) (symbol : Symbol) :
    (table.define symbol).depth = table.depth := by
  obtain ⟨nested, inner, document⟩ := table
  cases inner <;> rfl

/-- `define` leaves a table nested or flat, as it is. -/
theorem nested_define (table : SymbolTable) (symbol : Symbol) :
    (table.define symbol).nested = table.nested := by
  obtain ⟨nested, inner, document⟩ := table
  cases inner <;> rfl

/-- `exit` drops what is defined in the scope that it closes. -/
theorem exit_define_of_nested {table : SymbolTable} (h : table.nested = true)
    (hdepth : table.depth ≠ 0) (symbol : Symbol) : (table.define symbol).exit = table.exit := by
  obtain ⟨nested, inner, document⟩ := table
  obtain rfl : nested = true := h
  cases inner with
  | nil => exact absurd rfl hdepth
  | cons scope outer => rfl

namespace Grows

variable {before middle after : SymbolTable}

/-- A table `Grows` to itself. -/
theorem refl (table : SymbolTable) : table.Grows table := ⟨[], rfl⟩

/-- `Grows` holds of definitions one after the other. -/
theorem trans (h : before.Grows middle) (hmore : middle.Grows after) : before.Grows after := by
  obtain ⟨symbols, rfl⟩ := h
  obtain ⟨more, rfl⟩ := hmore
  exact ⟨symbols ++ more, List.foldl_append.symm⟩

/-- A table `Grows` by a definition. -/
theorem define (table : SymbolTable) (symbol : Symbol) : table.Grows (table.define symbol) :=
  ⟨[symbol], rfl⟩

/-- What no definition changes stays the same in a table that `Grows`. -/
theorem eq_of_define {α : Type} (f : SymbolTable → α) (h : before.Grows after)
    (hdefine : ∀ table symbol, f (SymbolTable.define table symbol) = f table) :
    f after = f before := by
  obtain ⟨symbols, rfl⟩ := h
  induction symbols generalizing before with
  | nil => rfl
  | cons symbol symbols ih => rw [List.foldl_cons, ih, hdefine]

/-- The current scope of a table that `Grows` is the one that it was, with more defined in it. -/
theorem exists_current (h : before.Grows after) :
    ∃ symbols : List Symbol, after.current = symbols.foldl Scope.define before.current := by
  obtain ⟨symbols, rfl⟩ := h
  refine ⟨symbols, ?_⟩
  induction symbols generalizing before with
  | nil => rfl
  | cons symbol symbols ih => rw [List.foldl_cons, ih, current_define, List.foldl_cons]

/-- `exit` gives back the table before `enter`, if the table in between only `Grows`. -/
theorem exit_eq {table : SymbolTable} {kind : ScopeKind} (hnested : table.nested = true)
    (h : (table.enter kind).Grows after) : after.exit = table := by
  obtain ⟨symbols, rfl⟩ := h
  suffices hexit : ∀ inner : SymbolTable, inner.nested = true → inner.depth ≠ 0 →
      (symbols.foldl SymbolTable.define inner).exit = inner.exit by
    have henter : (table.enter kind).nested = true ∧ (table.enter kind).depth ≠ 0 := by
      simp [enter, hnested, depth]
    rw [hexit _ henter.1 henter.2, exit_enter]
  induction symbols with
  | nil => exact fun _ _ _ => rfl
  | cons symbol symbols ih =>
    intro inner hinner hdepth
    rw [List.foldl_cons, ih _ (by rwa [nested_define]) (by rwa [depth_define]),
      exit_define_of_nested hinner hdepth]

/-- A flat table `Grows` by what is defined in a scope of its own. -/
theorem of_enter {table : SymbolTable} {kind : ScopeKind} (h : (table.enter kind).Grows after) :
    table.Grows after.exit := by
  cases hnested : table.nested with
  | true =>
    rw [h.exit_eq hnested]
    exact .refl table
  | false =>
    have henter : table.enter kind = table := by simp [enter, hnested]
    rw [henter] at h
    have hexit : after.exit = after := by
      simp [exit, h.eq_of_define (·.nested) nested_define, hnested]
    rw [hexit]
    exact h

end Grows

/-- What is left of the scopes of a table: as many are open, and only the `current` one may have
changed, by definitions. -/
structure KeepsScopes (before after : SymbolTable) : Prop where
  nested : after.nested = before.nested
  depth : after.depth = before.depth
  current : ∃ symbols : List Symbol, after.current = symbols.foldl Scope.define before.current
  outer : after.scopes.tail = before.scopes.tail

/-- A table that `Grows` keeps its scopes. -/
theorem Grows.keepsScopes {before after : SymbolTable} (h : before.Grows after) :
    before.KeepsScopes after where
  nested := h.eq_of_define (·.nested) nested_define
  depth := h.eq_of_define depth depth_define
  current := h.exists_current
  outer := h.eq_of_define (·.scopes.tail) tail_scopes_define

end SymbolTable

/-! ## Steps that let the table grow -/

namespace Check

/-- Whatever a step comes to, the table only `Grows`. -/
def Grows {α : Type} (step : Check α) : Prop :=
  ∀ state : Checking, state.table.Grows (step.run state).2.table

variable {α β : Type}

/-- `>>=` lets the table grow if both of its steps do; after an obstacle there is no other. -/
theorem Grows.bind {step : Check α} {next : α → Check β} (h : Grows step)
    (hnext : ∀ x, Grows (next x)) : Grows (step >>= next) := by
  intro state
  have hstep := h state
  rw [run_bind]
  generalize step.run state = outcome at hstep ⊢
  obtain ⟨result, middle⟩ := outcome
  cases result with
  | ok x => exact hstep.trans (hnext x middle)
  | error obstacle => exact hstep

/-- `pure` leaves the table as it is. -/
theorem grows_pure (x : α) : Grows (pure x) := fun state => .refl state.table

/-- `throw` leaves the table as it is. -/
theorem grows_throw (obstacle : Obstacle) : Grows (throw obstacle : Check α) :=
  fun state => .refl state.table

/-- `table` leaves the table as it is. -/
theorem grows_table : Grows table := fun state => .refl state.table

/-- `note` leaves the table as it is. -/
theorem grows_note (mismatch : TypeMismatch) : Grows (note mismatch) :=
  fun state => .refl state.table

/-- `define` lets the table grow by a definition in its current scope. -/
theorem grows_define (name : String) (type : TypeTag) (offset : Int) :
    Grows (define name type offset) := fun state => .define state.table _

/-- `inScope` lets the table grow: a scope that is opened is closed again. -/
theorem Grows.inScope {step : Check Unit} (h : Grows step) (kind : ScopeKind) :
    Grows (inScope kind step) := by
  intro state
  rw [run_inScope]
  exact .of_enter (h { state with table := state.table.enter kind })

/-- `declaredType` leaves the table as it is. -/
theorem grows_declaredType (name : String) : Grows (declaredType name) := by
  unfold declaredType
  split
  · exact grows_pure _
  · exact grows_throw _

/-- `defineParams` lets the table grow by definitions in its current scope. -/
theorem grows_defineParams (params : List Node) : Grows (defineParams params) := by
  refine grows_table.bind fun table => ?_
  split
  · induction params with
    | nil => exact grows_pure ()
    | cons param params ih =>
      have hparam : Grows (defineParam param) := by
        cases param with
        | identifier span name => exact grows_define name .any span.start
        | _ => exact grows_throw _
      exact hparam.bind fun _ => ih
  · exact grows_pure ()

/-- `declare` lets the table grow by a definition in its current scope, or by none. -/
theorem grows_declare (name : String) (start : Int) (declared : TypeTag) (init : Node) :
    Grows (declare name start declared init) := by
  unfold declare
  split
  · exact grows_define name declared start
  · refine grows_table.bind fun table => ?_
    dsimp only
    split
    · exact grows_define name declared start
    · exact grows_note _

/-- `judge` leaves the table as it is. -/
theorem grows_judge (name : String) (value : Node) : Grows (judge name value) := by
  refine grows_table.bind fun table => ?_
  split
  · exact grows_pure ()
  · exact grows_pure ()
  · dsimp only
    split
    · exact grows_note _
    · exact grows_pure ()

mutual

/-- `tree` lets the table grow, whatever the node. -/
theorem grows_tree : (node : Node) → Grows (tree node)
  | .absent | .identifier .. | .literal .. => by
    rw [tree]
    exact grows_pure ()
  | .variableDeclaration span type name init => by
    cases name with
    | identifier _ name =>
      cases type with
      | none =>
        rw [tree]
        exact (grows_define name .any span.start).bind fun _ => grows_tree init
      | some type =>
        rw [tree]
        exact (grows_declaredType type).bind fun declared =>
          grows_declare name span.start declared init
    | _ =>
      simp only [tree]
      exact grows_throw _
  | .assignment _ _ target value => by
    cases target with
    | identifier _ name =>
      rw [tree]
      exact (grows_judge name value).bind fun _ => grows_tree value
    | _ =>
      simp only [tree]
      exact grows_throw _
  | .forStatement _ init test update body => by
    rw [tree]
    exact Grows.inScope ((grows_tree init).bind fun _ => (grows_tree test).bind fun _ =>
      (grows_tree update).bind fun _ => grows_tree body) _
  | .functionDeclaration _ _ params body => by
    cases body with
    | block _ nodes =>
      rw [tree]
      exact Grows.inScope ((grows_defineParams params).bind fun _ => grows_trees nodes) _
    | _ =>
      simp only [tree]
      exact Grows.inScope ((grows_defineParams params).bind fun _ => grows_throw _) _
  | .classDeclaration _ _ body => by
    cases body with
    | block _ nodes =>
      rw [tree]
      exact (grows_trees nodes).inScope _
    | _ =>
      simp only [tree]
      exact grows_throw _
  | .block _ nodes => by
    rw [tree]
    exact (grows_trees nodes).inScope _
  | .program _ nodes _ | .array _ nodes | .object _ nodes => by
    rw [tree]
    exact grows_trees nodes
  | .call _ callee arguments => by
    rw [tree]
    exact (grows_tree callee).bind fun _ => grows_trees arguments
  | .ifStatement _ test consequent alternate => by
    rw [tree]
    exact (grows_tree test).bind fun _ => (grows_tree consequent).bind fun _ => grows_tree alternate
  | .whileStatement _ first second | .member _ first second | .property _ first second
  | .binary _ _ first second | .logical _ _ first second => by
    -- the operands of a chain are checked one after the other
    simp only [tree, operands_eq_trees, trees, bind_pure_unit]
    exact (grows_tree first).bind fun _ => grows_tree second
  | .returnStatement _ node | .expressionStatement _ node | .unary _ _ node => by
    rw [tree]
    exact grows_tree node

/-- `trees` let the table grow, one after the other. -/
theorem grows_trees : (nodes : List Node) → Grows (trees nodes)
  | [] => by
    rw [trees]
    exact grows_pure ()
  | node :: nodes => by
    rw [trees]
    exact (grows_tree node).bind fun _ => grows_trees nodes

end

/-! ## Constructs with a scope of their own -/

/-- Whether a construct has variables of its own. -/
def opensScope : Node → Bool
  | .block .. | .forStatement .. | .functionDeclaration .. | .classDeclaration .. => true
  | _ => false

/-- `inScope` gives a nested table back as it was. -/
theorem Grows.table_inScope {step : Check Unit} {state : Checking} (h : Grows step)
    (hnested : state.table.nested = true) (kind : ScopeKind) :
    ((Check.inScope kind step).run state).2.table = state.table := by
  rw [run_inScope]
  exact (h { state with table := state.table.enter kind }).exit_eq hnested

/-- `tree` gives a nested table back as it was if the node `opensScope`. -/
theorem table_tree_of_opensScope {node : Node} {state : Checking}
    (hnested : state.table.nested = true) (h : opensScope node = true) :
    ((tree node).run state).2.table = state.table := by
  cases node with
  | block span nodes =>
    rw [tree]
    exact (grows_trees nodes).table_inScope hnested .block
  | forStatement span init test update body =>
    rw [tree]
    exact Grows.table_inScope ((grows_tree init).bind fun _ => (grows_tree test).bind fun _ =>
      (grows_tree update).bind fun _ => grows_tree body) hnested .loop
  | functionDeclaration span name params body =>
    cases body with
    | block _ nodes =>
      rw [tree]
      exact Grows.table_inScope ((grows_defineParams params).bind fun _ => grows_trees nodes)
        hnested .function
    | _ =>
      -- a body that is no block stops the check inside the scope, which is closed all the same
      simp only [tree]
      exact Grows.table_inScope ((grows_defineParams params).bind fun _ => grows_throw _)
        hnested .function
  | classDeclaration span name body =>
    cases body with
    | block _ nodes =>
      rw [tree]
      exact (grows_trees nodes).table_inScope hnested .classBody
    | _ =>
      simp only [tree]
      rfl
  | _ => cases h

/-- Whether the check of a tree ends or is stopped, a nested table has its scopes back
(`KeepsScopes`), and all of it is as before if the tree is a construct with a scope of its own. -/
theorem tree_keepsScopes (node : Node) (state : Checking) (h : state.table.nested = true) :
    state.table.KeepsScopes ((tree node).run state).2.table ∧
      (opensScope node = true → ((tree node).run state).2.table = state.table) :=
  ⟨(grows_tree node state).keepsScopes, table_tree_of_opensScope h⟩

/-- In a block, a loop is checked in whose body a variable is declared and then one of no type: the
check is stopped there, two scopes deeper, and the table is the one of the block again. -/
theorem tree_keepsScopes_unknownType :
    let span : Span := .between 0 0
    let state : Checking :=
      ⟨((SymbolTable.empty true).enter .function).define ⟨"x", .int, none⟩, []⟩
    let declared (type : Option String) := Node.variableDeclaration span type (.identifier span "y")
      .absent
    let loop := Node.forStatement span .absent .absent .absent
      (.block span [declared none, declared (some "long")])
    (∃ fault, ((tree loop).run state).1 = .error (.unknownType fault)) ∧
      state.table.KeepsScopes ((tree loop).run state).2.table ∧
      ((tree loop).run state).2.table = state.table := by
  intro span state declared loop
  have hkeeps := tree_keepsScopes loop state rfl
  refine ⟨?_, hkeeps.1, hkeeps.2 rfl⟩
  simp only [loop, declared, tree, trees, pure_bind]
  exact ⟨_, rfl⟩

end Check

end NeutronLang
