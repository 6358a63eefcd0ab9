import NeutronLang.Proofs.TreeShapes
import NeutronLang.Validation

/-!
# The mismatches that a check notes

A check takes a mismatch down only where it judges a binding, whatever the tree, whatever the table
and whether it ends or is stopped (`Check.notes_tree`). So what holds of the judgements of a
document's bindings holds of its mismatches, flat or nested. Nothing has to be known about the
table: `Notes` is about all of them. The diagnostics of a text are its syntax errors and these
mismatches.
-/

namespace NeutronLang

/-! ## Mismatches of bindings -/

/-- A mismatch that one of `bindings` is judged to be (`Node.judgement`), under some types of
variables. -/
def TypeMismatch.IsOf (bindings : List Node) (mismatch : TypeMismatch) : Prop :=
  ∃ binding ∈ bindings, ∃ typeOf?, binding.judgement typeOf? = .mismatch mismatch

/-- `IsOf` holds of the mismatch of a single binding. -/
theorem TypeMismatch.isOf_singleton {binding : Node} {typeOf? : String → Option TypeTag}
    {mismatch : TypeMismatch} (h : binding.judgement typeOf? = .mismatch mismatch) :
    mismatch.IsOf [binding] := ⟨binding, List.mem_singleton_self binding, typeOf?, h⟩

/-- A mismatch is about two children of its binding: it names the first and spans another. -/
theorem Node.exists_children_of_judgement {typeOf? : String → Option TypeTag} {node : Node}
    {mismatch : TypeMismatch} (h : node.judgement typeOf? = .mismatch mismatch) :
    ∃ nameSpan name value, .identifier nameSpan name ∈ node.children.head? ∧
      value ∈ node.children ∧
      (mismatch.receiver = .declaration name ∨ mismatch.receiver = .assignment name) ∧
      mismatch.span = value.span := by
  obtain ⟨span, nameSpan, name, value, declared, hfits, hbinding⟩ := cases_of_judgement h
  have hvalue := present_of_accepts_eq_false hfits
  rcases hbinding with ⟨type, rfl, -, rfl⟩ | ⟨operator, rfl, -, rfl⟩
  · have hchildren :
        children (variableDeclaration span (some type) (identifier nameSpan name) value) =
        [identifier nameSpan name, value] := by
      simp [children, hvalue]
    rw [hchildren]
    exact ⟨nameSpan, name, value, rfl, by simp, .inl rfl, rfl⟩
  · exact ⟨nameSpan, name, value, rfl, by simp [children], .inr rfl, rfl⟩

/-- A child of one of the `bindings` of some trees is a node of one of them. -/
theorem Node.exists_mem_subtrees_of_binding {trees : List Node} {binding child : Node}
    (h : binding ∈ trees.flatMap Node.bindings) (hchild : child ∈ binding.children) :
    ∃ tree ∈ trees, child ∈ tree.subtrees := by
  obtain ⟨tree, htree, hbinding⟩ := List.mem_flatMap.mp h
  refine ⟨tree, htree, subtrees_subset (List.mem_filter.mp hbinding).1 ?_⟩
  rw [subtrees_eq]
  refine List.mem_cons_of_mem _ (List.mem_flatMap.mpr ⟨child, hchild, ?_⟩)
  rw [subtrees_eq]
  exact List.mem_cons_self

namespace Check

variable {α β : Type} {bindings more : List Node}

/-- What a step notes, whatever it comes to, are mismatches of `bindings`. -/
def Notes (bindings : List Node) (step : Check α) : Prop :=
  ∀ state : Checking, ∀ mismatch ∈ (step.run state).2.mismatches,
    mismatch ∈ state.mismatches ∨ mismatch.IsOf bindings

/-- `Notes` stays true with more bindings. -/
theorem Notes.mono {step : Check α} (h : Notes bindings step) (hsubset : bindings ⊆ more) :
    Notes more step := by
  intro state mismatch hmismatch
  refine (h state mismatch hmismatch).imp_right ?_
  rintro ⟨binding, hbinding, hjudgement⟩
  exact ⟨binding, hsubset hbinding, hjudgement⟩

/-- `Notes` holds of a step that leaves the mismatches alone. -/
theorem notes_of_eq {step : Check α}
    (h : ∀ state : Checking, (step.run state).2.mismatches = state.mismatches) :
    Notes bindings step := by
  intro state mismatch hmismatch
  rw [h state] at hmismatch
  exact .inl hmismatch

/-- `pure` notes nothing. -/
theorem notes_pure (x : α) : Notes bindings (pure x) := notes_of_eq fun _ => rfl

/-- `throw` notes nothing. -/
theorem notes_throw (obstacle : Obstacle) : Notes bindings (throw obstacle : Check α) :=
  notes_of_eq fun _ => rfl

/-- `define` notes nothing. -/
theorem notes_define (name : String) (type : TypeTag) (offset : Int) :
    Notes bindings (define name type offset) := notes_of_eq fun _ => rfl

/-- `note` notes a mismatch, which has to be one of the bindings. -/
theorem notes_note {mismatch : TypeMismatch} (h : mismatch.IsOf bindings) :
    Notes bindings (note mismatch) := by
  intro state other hother
  rcases List.mem_append.mp (show other ∈ state.mismatches ++ [mismatch] from hother) with
    hother | hother
  · exact .inl hother
  · rw [List.mem_singleton.mp hother]
    exact .inr h

/-- `table` hands the table of some state on to what is done with it. -/
theorem notes_table_bind {next : SymbolTable → Check α} (h : ∀ table, Notes bindings (next table)) :
    Notes bindings (table >>= next) := fun state => h state.table state

/-- `>>=` notes what each of its steps does; after an obstacle there is no second one. -/
theorem Notes.bind {step : Check α} {next : α → Check β} (h : Notes bindings step)
    (hnext : ∀ x, Notes more (next x)) : Notes (bindings ++ more) (step >>= next) := by
  intro state
  have hstep : ∀ mismatch ∈ (step.run state).2.mismatches,
      mismatch ∈ state.mismatches ∨ mismatch.IsOf (bindings ++ more) :=
    (h.mono (List.subset_append_left _ _)) state
  rw [run_bind]
  generalize step.run state = outcome at hstep ⊢
  obtain ⟨result, middle⟩ := outcome
  cases result with
  | error obstacle => exact hstep
  | ok x =>
    intro mismatch hmismatch
    rcases (hnext x).mono (List.subset_append_right _ _) middle mismatch hmismatch with
      hmiddle | hmore
    · exact hstep mismatch hmiddle
    · exact .inr hmore

/-- `inScope` notes what its step does. -/
theorem Notes.inScope {step : Check Unit} (h : Notes bindings step) (kind : ScopeKind) :
    Notes bindings (inScope kind step) := by
  intro state
  rw [run_inScope]
  exact h { state with table := state.table.enter kind }

/-- `defineParams` notes nothing, since parameters have no values that could not fit. -/
theorem notes_defineParams (params : List Node) : Notes [] (defineParams params) := by
  refine notes_table_bind fun table => ?_
  split
  · induction params with
    | nil => exact notes_pure ()
    | cons param params ih =>
      have hparam : Notes [] (defineParam param) := by
        cases param with
        | identifier span name => exact notes_define name .any span.start
        | _ => exact notes_throw _
      exact hparam.bind fun _ => ih
  · exact notes_pure ()

/-- `declare` notes the mismatch of its own declaration. -/
theorem notes_declaration (span nameSpan : Span) (type name : String) (init : Node) :
    Notes [.variableDeclaration span (some type) (.identifier nameSpan name) init] (do
      declare name span.start (← declaredType type) init) := by
  unfold declaredType TypeTag.ofName
  cases htype : TypeTag.ofName? type with
  | none => exact notes_throw _
  | some declared =>
    rw [pure_bind]
    unfold declare
    split
    · exact notes_define name declared span.start
    · next habsent =>
      refine notes_table_bind fun table => ?_
      rw [SymbolTable.infer_eq_typeUnder]
      dsimp only
      split
      · exact notes_define name declared span.start
      · next haccepts =>
        have hjudgement : Node.judgement table.typeOf?
            (.variableDeclaration span (some type) (.identifier nameSpan name) init) =
              .mismatch ⟨declared, init.typeUnder table.typeOf?, .declaration name, init.span⟩ := by
          simp [Node.judgement, htype, habsent, haccepts]
        exact notes_note (TypeMismatch.isOf_singleton hjudgement)

/-- `judge` notes the mismatch of its own assignment. -/
theorem notes_judge (span nameSpan : Span) (operator name : String) (value : Node) :
    Notes [.assignment span operator (.identifier nameSpan name) value] (judge name value) := by
  refine notes_table_bind fun table => ?_
  split
  · exact notes_pure ()
  · exact notes_pure ()
  · next declared hany htype =>
    rw [SymbolTable.infer_eq_typeUnder]
    dsimp only
    split
    · next haccepts =>
      have hjudgement : Node.judgement table.typeOf?
          (.assignment span operator (.identifier nameSpan name) value) =
            .mismatch ⟨declared, value.typeUnder table.typeOf?, .assignment name, value.span⟩ := by
        simp only [Bool.not_eq_true'] at haccepts
        simp [Node.judgement, htype, haccepts]
      exact notes_note (TypeMismatch.isOf_singleton hjudgement)
    · exact notes_pure ()

mutual

/-- `tree` notes mismatches of the bindings of its node and no others. -/
theorem notes_tree : (node : Node) → Notes node.bindings (tree node)
  | .absent | .identifier .. | .literal .. => by
    rw [tree]
    exact notes_pure ()
  | .variableDeclaration span type name init => by
    rw [Node.bindings_variableDeclaration]
    cases name with
    | identifier nameSpan name =>
      cases type with
      | none =>
        rw [tree]
        have hdefine : Notes [] (define name .any span.start) := notes_define name .any span.start
        exact (hdefine.bind fun _ => notes_tree init).mono (by simp)
      | some type =>
        rw [tree]
        exact (notes_declaration span nameSpan type name init).mono (by simp)
    | _ =>
      simp only [tree]
      exact notes_throw _
  | .assignment span operator target value => by
    rw [Node.bindings_assignment]
    cases target with
    | identifier nameSpan name =>
      rw [tree]
      have hstep := (notes_judge span nameSpan operator name value).bind fun _ => notes_tree value
      exact hstep.mono (by simp)
    | _ =>
      simp only [tree]
      exact notes_throw _
  | .forStatement _ init test update body => by
    rw [tree, Node.bindings_forStatement]
    exact Notes.inScope ((notes_tree init).bind fun _ => (notes_tree test).bind fun _ =>
      (notes_tree update).bind fun _ => notes_tree body) _
  | .functionDeclaration _ name params body => by
    rw [Node.bindings_functionDeclaration]
    cases body with
    | block span nodes =>
      rw [tree, Node.bindings_block]
      have hstep := (notes_defineParams params).bind fun _ => notes_trees nodes
      exact (hstep.inScope _).mono (by simp)
    | _ =>
      simp only [tree]
      exact ((notes_defineParams params).bind fun _ => notes_throw _).inScope _
  | .classDeclaration _ name body => by
    rw [Node.bindings_classDeclaration]
    cases body with
    | block span nodes =>
      rw [tree, Node.bindings_block]
      exact ((notes_trees nodes).inScope _).mono (by simp)
    | _ =>
      simp only [tree]
      exact notes_throw _
  | .block _ nodes => by
    rw [tree, Node.bindings_block]
    exact (notes_trees nodes).inScope _
  | .program _ nodes _ | .array _ nodes | .object _ nodes => by
    rw [tree, Node.bindings_of_not_isBinding rfl]
    exact notes_trees nodes
  | .call _ callee arguments => by
    rw [tree, Node.bindings_of_not_isBinding rfl]
    exact (notes_tree callee).bind fun _ => notes_trees arguments
  | .ifStatement _ test consequent alternate => by
    rw [tree, Node.bindings_ifStatement]
    exact (notes_tree test).bind fun _ => (notes_tree consequent).bind fun _ => notes_tree alternate
  | .whileStatement _ first second | .member _ first second | .property _ first second
  | .binary _ _ first second | .logical _ _ first second => by
    -- the operands of a chain are checked one after the other
    simp only [tree, operands_eq_trees, trees, bind_pure_unit]
    rw [Node.bindings_of_not_isBinding rfl, Node.children, List.flatMap_cons, List.flatMap_cons,
      List.flatMap_nil, List.append_nil]
    exact (notes_tree first).bind fun _ => notes_tree second
  | .returnStatement _ node => by
    rw [tree, Node.bindings_returnStatement]
    exact notes_tree node
  | .expressionStatement _ node | .unary _ _ node => by
    rw [tree, Node.bindings_of_not_isBinding rfl, Node.children, List.flatMap_cons,
      List.flatMap_nil, List.append_nil]
    exact notes_tree node

/-- `trees` note mismatches of the bindings of their nodes and no others. -/
theorem notes_trees : (nodes : List Node) → Notes (nodes.flatMap Node.bindings) (trees nodes)
  | [] => by
    rw [trees]
    exact notes_pure ()
  | node :: nodes => by
    rw [trees, List.flatMap_cons]
    exact (notes_tree node).bind fun _ => notes_trees nodes

end

end Check

/-- The mismatches of a document are those of its bindings. -/
theorem Reading.isOf_of_mem_mismatches {reading : Reading} {nested : Bool}
    {mismatch : TypeMismatch} (h : mismatch ∈ reading.mismatches nested) :
    mismatch.IsOf (reading.statements.flatMap Node.bindings) :=
  (Check.notes_trees reading.statements ⟨.empty nested, []⟩ mismatch h).resolve_left
    List.not_mem_nil

/-- A diagnostic of a text is a problem of its document. -/
theorem exists_problem_of_mem_diagnostics {file : String} {text : List Char} {settings : Settings}
    {diagnostic : Diagnostic} (h : diagnostic ∈ (validate file text settings).diagnostics) :
    ∃ reading problem, readDocument text = .ok reading ∧
      problem ∈ reading.problems settings.nested ∧
      diagnostic = .ofProblem text Diagnostic.defaultSource problem := by
  unfold validate at h
  split at h
  · split at h
    · cases h
    · next reading hreading =>
      obtain ⟨problem, hproblem, rfl⟩ := List.mem_map.mp h
      exact ⟨reading, problem, hreading, List.mem_of_mem_take hproblem, rfl⟩
  · cases h

end NeutronLang
