import NeutronLang.Proofs.Judgements

/-!
# Checking with a flat table

Without scopes of their own, the constructs around a declaration or an assignment do not matter: a
check is the fold of its judgements over the bindings of a document in the order of the text
(`Known.settle`). Every path of the check, through bodies, clauses of loops and chains of operators,
comes to the bindings below it, one after the other; that is the invariant of the induction over
statements.
-/

namespace NeutronLang

open Grammar Rendering

/-! ## Steps in a flat table -/

/-- A flat table with the variables that are `known`, all of them in the scope of the document. -/
structure SymbolTable.IsFlat (known : Known) (table : SymbolTable) : Prop where
  flat : table.nested = false
  alone : table.inner = []
  holds : table.document.Holds known

namespace SymbolTable.IsFlat

variable {known : Known} {table : SymbolTable}

/-- `lookup?` in a flat table gives what is known. -/
theorem lookup?_eq (h : table.IsFlat known) (name : String) : table.lookup? name = known name := by
  rw [lookup?, scopes, h.alone, List.nil_append, List.findSome?_cons, h.holds.find?_eq]
  cases known name <;> rfl

/-- `typeOf?` in a flat table gives what is known. -/
theorem typeOf?_eq (h : table.IsFlat known) : table.typeOf? = known.typeOf? := by
  funext name
  rw [typeOf?, h.lookup?_eq, Known.typeOf?]

/-- `define` in a flat table makes its variable known. -/
theorem define (h : table.IsFlat known) (symbol : Symbol) :
    (table.define symbol).IsFlat (known.define symbol) := by
  obtain ⟨nested, inner, document⟩ := table
  obtain ⟨rfl, rfl, hholds⟩ := h
  exact ⟨rfl, rfl, hholds.define symbol⟩

end SymbolTable.IsFlat

/-- A binding holds no others. -/
theorem Node.bindings_of_binding {node : Node} (h : IsDeclaration node ∨ IsAssignment node) :
    node.bindings = [node] := by
  rcases h with ⟨-, -, rfl | hinit⟩ | ⟨-, hvalue⟩
  · simp
  · simp [Node.bindings_of_isExpression hinit]
  · simp [Node.bindings_of_isExpression hvalue]

namespace Check

/-- A step of a check with a flat table settles `bindings` (`Known.settle`). -/
def Settles (step : Check Unit) (bindings : List Node) : Prop :=
  Follows SymbolTable.IsFlat step (·.settle bindings)

variable {first second step : Check Unit} {bindings more : List Node}

/-- `pure ()` settles no bindings. -/
theorem settles_pure : Settles (pure ()) [] := follows_pure

/-- Steps one after the other settle their bindings one after the other. -/
theorem Settles.bind (h : Settles first bindings) (hmore : Settles second more) :
    Settles (do first; second) (bindings ++ more) := by
  have hfollows := Follows.bind h hmore
  unfold Settles
  simp only [Known.settle_append]
  exact hfollows

/-- `tree` of an expression settles no bindings. -/
theorem settles_of_isExpression {node : Node} (h : node = .absent ∨ IsExpression node) :
    Settles (tree node) node.bindings := by
  rw [tree_of_absent_or_isExpression h]
  rcases h with rfl | h
  · rw [Node.bindings_absent]
    exact settles_pure
  · rw [Node.bindings_of_isExpression h]
    exact settles_pure

/-- `tree` of a binding settles the binding. -/
theorem settles_binding {node : Node} (h : IsDeclaration node ∨ IsAssignment node) :
    Settles (tree node) node.bindings := by
  rw [Node.bindings_of_binding h, Settles]
  simp only [Known.settle_singleton]
  exact follows_binding (fun _ _ hflat => hflat.typeOf?_eq)
    (fun _ _ symbol hflat => hflat.define symbol) h

/-- `inScope` settles what its step does: a scope makes no difference. -/
theorem Settles.inScope (h : Settles step bindings) (kind : ScopeKind) :
    Settles (inScope kind step) bindings := by
  intro known state hflat
  obtain ⟨table, htable, hrun⟩ := h known state hflat
  refine ⟨table, htable, ?_⟩
  have henter : state.table.enter kind = state.table := by
    rw [SymbolTable.enter, hflat.flat]
    rfl
  have hexit : table.exit = table := by
    rw [SymbolTable.exit, htable.flat]
    rfl
  rw [run_inScope, henter, hrun]
  simp only [hexit]

/-- `trees` settle their bindings one after the other. -/
theorem settles_trees {nodes : List Node} (h : ∀ node ∈ nodes, Settles (tree node) node.bindings) :
    Settles (trees nodes) (nodes.flatMap Node.bindings) := by
  induction nodes with
  | nil =>
    rw [trees]
    exact settles_pure
  | cons node nodes ih =>
    obtain ⟨hnode, hnodes⟩ := List.forall_mem_cons.mp h
    rw [trees, List.flatMap_cons]
    exact hnode.bind (ih hnodes)

/-- `tree` of a block settles the bindings of its statements one after the other. -/
theorem settles_block {span : Span} {nodes : List Node}
    (h : ∀ node ∈ nodes, Settles (tree node) node.bindings) :
    Settles (tree (.block span nodes)) (Node.block span nodes).bindings := by
  rw [tree, Node.bindings_block]
  exact (settles_trees h).inScope .block

/-- `defineParams` keeps no parameters of functions. -/
theorem settles_defineParams (params : List Node) : Settles (defineParams params) [] := by
  intro known state hflat
  have hrun : (defineParams params).run state = (pure () : Check Unit).run state := by
    rw [defineParams, run_table_bind, hflat.flat, if_neg Bool.false_ne_true]
  rw [hrun]
  exact settles_pure known state hflat

/-- `tree` of a statement settles its bindings. -/
theorem settles_of_isStatement {node : Node} (h : IsStatement node) :
    Settles (tree node) node.bindings := by
  induction h with
  | declaration h => exact settles_binding (.inl h)
  | assignment h _ => exact settles_binding (.inr h)
  | expression h _ =>
    rw [tree, Node.bindings_expressionStatement]
    exact settles_of_isExpression (.inr h)
  | returns h =>
    rw [tree, Node.bindings_returnStatement]
    exact settles_of_isExpression h
  | conditional htest _ ih =>
    rw [tree, Node.bindings_ifStatement]
    exact (settles_of_isExpression (.inr htest)).bind
      ((settles_block ih).bind (settles_of_isExpression (.inl rfl)))
  | conditionalElse htest _ _ ih ihother =>
    rw [tree, Node.bindings_ifStatement]
    exact (settles_of_isExpression (.inr htest)).bind
      ((settles_block ih).bind (settles_block ihother))
  | conditionalChain htest _ _ ih ihnext =>
    rw [tree, Node.bindings_ifStatement]
    exact (settles_of_isExpression (.inr htest)).bind ((settles_block ih).bind ihnext)
  | loop htest _ ih =>
    rw [tree, Node.bindings_whileStatement]
    exact (settles_of_isExpression (.inr htest)).bind (settles_block ih)
  | @forLoop _ _ init _ update _ hinit htest hupdate _ ih =>
    rw [tree, Node.bindings_forStatement]
    have hinit : Settles (tree init) init.bindings :=
      (initClause_cases hinit).elim settles_of_isExpression settles_binding
    have hupdate : Settles (tree update) update.bindings :=
      (updateClause_cases hupdate).elim settles_of_isExpression settles_binding
    -- in a flat table the scope of the loop makes no difference
    exact (hinit.bind ((settles_of_isExpression htest).bind
      (hupdate.bind (settles_block ih)))).inScope .loop
  | @function _ _ _ _ params _ _ _ _ ih =>
    have hparams : (params.map fun param => Node.identifier param.1 param.2).flatMap
        Node.bindings = [] := by
      simp [List.flatMap_map]
    rw [tree, Node.bindings_functionDeclaration, hparams, Node.bindings_identifier,
      Node.bindings_block]
    exact ((settles_defineParams _).bind (settles_trees ih)).inScope .function
  | declaredClass _ _ ih =>
    rw [tree, Node.bindings_classDeclaration, Node.bindings_identifier, List.nil_append,
      Node.bindings_block]
    exact (settles_trees ih).inScope .classBody

end Check

/-! ## The check of a document -/

/-- A check with a flat table comes to the fold `Known.settle` of judgements over the bindings of a
document. -/
structure ChecksInOrder (statements : List Node) (before : List TypeMismatch)
    (outcome : Except Obstacle Unit × Checking) : Prop where
  /-- No statement stops the check. -/
  finished : outcome.1 = .ok ()
  /-- The mismatches come after those noted before, in the order of the fold. -/
  mismatches : outcome.2.mismatches =
    before ++ (Known.nothing.settle (statements.flatMap Node.bindings)).2
  /-- The one scope of the table has what the fold makes known, with the offsets of the
  declarations. -/
  table : outcome.2.table.IsFlat (Known.nothing.settle (statements.flatMap Node.bindings)).1
  /-- What the fold makes known is also what is looked up. -/
  lookup : ∀ name, outcome.2.table.lookup? name =
    (Known.nothing.settle (statements.flatMap Node.bindings)).1 name
  /-- The bindings that the fold goes through are in the order of the text. -/
  bindings_ordered : ((statements.flatMap Node.bindings).map (·.span.start)).Pairwise (· < ·)
  /-- The mismatches of the fold are in the order of the text. -/
  mismatches_ordered :
    ((Known.nothing.settle (statements.flatMap Node.bindings)).2.map (·.span.start)).Pairwise
      (· < ·)

/-- The check of a document with a flat table is the fold `Known.settle` over its declarations and
assignments, at any depth, in the order of the text. A check starts with an empty table, so the
mismatches noted `before` are all that earlier checks can leave to it. -/
theorem checkStatements_flat {text : List Char} {reading : Reading}
    (h : readDocument text = .ok reading) (before : List TypeMismatch) :
    ChecksInOrder reading.statements before
      (checkStatements false reading.statements before) := by
  have hmarks := marks_of_readDocument h
  have hempty : (SymbolTable.empty false).IsFlat .nothing := ⟨rfl, rfl, .empty .document⟩
  obtain ⟨table, htable, hrun⟩ :=
    Check.settles_trees (fun statement hstatement =>
      Check.settles_of_isStatement (isStatement_of_readDocument h statement hstatement))
      .nothing ⟨.empty false, before⟩ hempty
  unfold checkStatements
  rw [hrun]
  refine ⟨rfl, rfl, htable, htable.lookup?_eq, ?_, ?_⟩
  · exact hmarks.sublist (Node.starts_sublist_marks _)
  · exact hmarks.sublist (Known.settle_marks _ _)

/-- A variable that is declared in a body is known behind it, where a string does not fit. -/
theorem checkStatements_flat_body :
    let text := "if (b) \x7b var int x = 1; \x7d x = 's';".toList
    ∃ reading, readDocument text = .ok reading ∧
      ChecksInOrder reading.statements [] (checkStatements false reading.statements []) ∧
      (checkStatements false reading.statements []).2.mismatches.map (·.span.start) = [30] := by
  intro text
  have htokens : tokenize text = .ok [⟨.keyword, "if", 0, 2⟩, ⟨.symbol, "(", 3, 4⟩,
      ⟨.identifier, "b", 4, 5⟩, ⟨.symbol, ")", 5, 6⟩, ⟨.symbol, "\x7b", 7, 8⟩,
      ⟨.keyword, "var", 9, 12⟩, ⟨.keyword, "int", 13, 16⟩, ⟨.identifier, "x", 17, 18⟩,
      ⟨.symbol, "=", 19, 20⟩, ⟨.number, "1", 21, 22⟩, ⟨.symbol, ";", 22, 23⟩,
      ⟨.symbol, "\x7d", 24, 25⟩, ⟨.identifier, "x", 26, 27⟩, ⟨.symbol, "=", 28, 29⟩,
      ⟨.string, "'s'", 30, 33⟩, ⟨.symbol, ";", 33, 34⟩] := by decide +kernel
  obtain ⟨reading, hreading, -, -⟩ := exists_reading htokens
  have hchecks := checkStatements_flat hreading []
  refine ⟨reading, hreading, hchecks, ?_⟩
  have hstatements : reading.statements = [
      .ifStatement (.between 0 25) (.identifier (.between 4 5) "b") (.block (.between 7 25)
        [.variableDeclaration (.between 9 23) (some "int") (.identifier (.between 17 18) "x")
          (.literal (.between 21 22) (.ofNumeral "1") "1" "number")]) .absent,
      .assignment (.between 26 34) "=" (.identifier (.between 26 27) "x")
        (.literal (.between 30 33) (.ofQuoted "'s'") "'s'" "string")] :=
    (reading_eq htokens hreading).1
  have hliteral (span : Span) (value : LiteralValue) (raw type : String) :
      (Node.literal span value raw type).bindings = [] := Node.bindings_of_not_isBinding rfl
  -- by the theorem above only the bindings count, in their order
  rw [hchecks.mismatches, hstatements]
  simp only [List.flatMap_cons, List.flatMap_nil, Node.bindings_ifStatement, Node.bindings_block,
    Node.bindings_variableDeclaration, Node.bindings_assignment, Node.bindings_identifier, hliteral,
    Node.bindings_absent, List.append_nil, List.nil_append, List.singleton_append]
  decide

end NeutronLang
