import NeutronLang.Proofs.Judgements

/-!
# Checking with a nested table

`Lexical.tree` is a check without a table: a function of the frames around a place and of the frame
that declarations add to. A block, a loop, a function and a class are visited with a frame of their
own, which nothing outside them sees again, because only the frame of the place itself is among the
results. A check with a nested table does the same with scopes that it opens and closes.

The invariant is that the open scopes hold what the frames say, one by one from the inside
(`SymbolTable.IsNested`).
-/

namespace NeutronLang

open Grammar Rendering

/-! ## The check by frames -/

namespace Lexical

/-- The variable of a name in the innermost of the `frames` that has one. -/
def find? (frames : List Known) (name : String) : Option Symbol := frames.findSome? (· name)

/-- The type of a name in the innermost of the `frames` that has one. -/
def typeOf? (frames : List Known) (name : String) : Option TypeTag :=
  (find? frames name).map (·.type)

/-- `typeOf?` of a single frame is that of the frame. -/
theorem typeOf?_singleton (frame : Known) : typeOf? [frame] = frame.typeOf? := by
  funext name
  unfold typeOf? find? Known.typeOf?
  rw [List.findSome?_cons]
  cases frame name <;> rfl

/-- A parameter becomes known in `frame`, of any type. -/
def param (frame : Known) : Node → Known
  | .identifier span name => frame.define ⟨name, .any, some span.start⟩
  | _ => frame

mutual

/-- What a tree adds to `frame`, that of its place, and the mismatches in it; `outer` are the frames
around. -/
def tree (outer : List Known) (frame : Known) (node : Node) : Known × List TypeMismatch :=
  match node with
  | .variableDeclaration .. | .assignment .. =>
    frame.judged (node.judgement (typeOf? (frame :: outer)))
  | .block _ nodes => (frame, (trees (frame :: outer) .nothing nodes).2)
  | .forStatement _ init test update body =>
    (frame, (trees (frame :: outer) .nothing [init, test, update, body]).2)
  | .functionDeclaration _ _ params (.block _ nodes) =>
    (frame, (trees (frame :: outer) (params.foldl param .nothing) nodes).2)
  | .classDeclaration _ _ (.block _ nodes) => (frame, (trees (frame :: outer) .nothing nodes).2)
  | node => trees outer frame node.children
termination_by (sizeOf node, 0)
decreasing_by
  all_goals apply Prod.Lex.left
  · exact Node.sizes_children_lt (.block _ nodes)
  · simp +arith
  · exact Nat.lt_trans (Node.sizes_children_lt (.block _ nodes)) (by simp +arith)
  · exact Nat.lt_trans (Node.sizes_children_lt (.block _ nodes)) (by simp +arith)
  · exact node.sizes_children_lt

/-- What `tree` gives for trees in order. -/
def trees (outer : List Known) (frame : Known) : List Node → Known × List TypeMismatch
  | [] => (frame, [])
  | node :: nodes =>
    let (after, mismatches) := tree outer frame node
    let (last, more) := trees outer after nodes
    (last, mismatches ++ more)
termination_by nodes => (Node.sizes nodes, 1)
decreasing_by
  all_goals simp +arith [Prod.lex_def, Node.sizeOf_pos]
  omega

end

/-! ## Expressions -/

section

variable {outer : List Known} {frame : Known}

/-- `trees` goes through trees one after the other. -/
theorem trees_cons (node : Node) (nodes : List Node) :
    trees outer frame (node :: nodes) =
      ((trees outer (tree outer frame node).1 nodes).1,
        (tree outer frame node).2 ++ (trees outer (tree outer frame node).1 nodes).2) := by
  rw [trees]

/-- `trees` does nothing if `tree` does nothing for each of them. -/
theorem trees_eq_of_forall {nodes : List Node}
    (h : ∀ node ∈ nodes, tree outer frame node = (frame, [])) :
    trees outer frame nodes = (frame, []) := by
  induction nodes with
  | nil => rw [trees]
  | cons node nodes ih =>
    obtain ⟨hnode, hnodes⟩ := List.forall_mem_cons.mp h
    rw [trees_cons, hnode, ih hnodes]
    rfl

/-- `tree` does nothing for what is left out. -/
@[simp] theorem tree_absent : tree outer frame .absent = (frame, []) := by
  rw [tree, Node.children, trees] <;> simp

/-- `tree` does nothing for a name. -/
theorem tree_identifier {span : Span} {name : String} :
    tree outer frame (.identifier span name) = (frame, []) := by
  rw [tree, Node.children, trees] <;> simp

/-- `tree` does nothing for an expression. -/
theorem tree_of_isExpression {node : Node} (h : IsExpression node) :
    tree outer frame node = (frame, []) := by
  -- all that is asked of a kind of expression is that its check is that of its children
  have hchildren {node : Node} (heq : tree outer frame node = trees outer frame node.children)
      (h : ∀ child ∈ node.children, tree outer frame child = (frame, [])) :
      tree outer frame node = (frame, []) := heq.trans (trees_eq_of_forall h)
  have hleaf {node : Node} (heq : tree outer frame node = trees outer frame node.children)
      (h : node.children = []) : tree outer frame node = (frame, []) :=
    hchildren heq (by simp [h])
  induction h with
  | number | string | true | false | nil | name => exact hleaf (by rw [tree] <;> simp) rfl
  | binary _ _ _ _ ihleft ihright | logical _ _ _ ihleft ihright =>
    exact hchildren (by rw [tree] <;> simp) (by simp [Node.children, ihleft, ihright])
  | unary _ _ ih => exact hchildren (by rw [tree] <;> simp) (by simp [Node.children, ih])
  | call _ _ _ ihcallee ih =>
    refine hchildren (by rw [tree] <;> simp) fun child hchild => ?_
    rcases List.mem_cons.mp hchild with rfl | hargument
    · exact ihcallee
    · exact ih child hargument
  | member _ _ _ ih =>
    exact hchildren (by rw [tree] <;> simp) (by simp [Node.children, ih, tree_identifier])
  | array _ ih => exact hchildren (by rw [tree] <;> simp) ih
  | object _ _ ih =>
    refine hchildren (by rw [tree] <;> simp) fun child hchild => ?_
    obtain ⟨entry, hentry, rfl⟩ := List.mem_map.mp hchild
    -- the key of a property is a literal but no expression of its own
    have hkey {span : Span} {value : LiteralValue} {raw type : String} :
        tree outer frame (.literal span value raw type) = (frame, []) :=
      hleaf (by rw [tree] <;> simp) rfl
    refine hchildren (by rw [Entry.node, tree] <;> simp) ?_
    simp [Entry.node, Node.children, ih entry hentry, hkey]

/-- `trees` is `tree` for a single one. -/
theorem trees_singleton (node : Node) : trees outer frame [node] = tree outer frame node := by
  rw [trees_cons, trees, List.append_nil]

/-- `trees` can pass over nodes that are left out. -/
theorem trees_present (nodes : List Node) :
    trees outer frame (Node.present nodes) = trees outer frame nodes := by
  induction nodes generalizing frame with
  | nil => rfl
  | cons node nodes ih =>
    cases node
    case absent =>
      rw [trees_cons, tree_absent, ← ih]
      rfl
    all_goals
      rw [trees_cons, ← ih, ← trees_cons]
      rfl

/-- `tree` judges a binding by the frames around it. -/
theorem tree_binding {node : Node} (h : IsDeclaration node ∨ IsAssignment node) :
    tree outer frame node = frame.judged (node.judgement (typeOf? (frame :: outer))) := by
  rcases h with h | h <;> cases h <;> rw [tree]

/-- `tree` of a conditional comes to its parts. -/
theorem tree_ifStatement {span : Span} {test consequent alternate : Node} :
    tree outer frame (.ifStatement span test consequent alternate) =
      trees outer frame [test, consequent, alternate] := by
  have hchildren : tree outer frame (.ifStatement span test consequent alternate) =
      trees outer frame (test :: consequent :: Node.present [alternate]) := by
    rw [tree, Node.children] <;> simp
  rw [hchildren, trees_cons, trees_cons, trees_present, ← trees_cons, ← trees_cons]

/-- `tree` of a loop with a test comes to its parts. -/
theorem tree_whileStatement {span : Span} {test body : Node} :
    tree outer frame (.whileStatement span test body) = trees outer frame [test, body] := by
  rw [tree, Node.children] <;> simp

/-- `tree` of an expression as a statement is that of the expression. -/
theorem tree_expressionStatement {span : Span} {expression : Node} :
    tree outer frame (.expressionStatement span expression) = tree outer frame expression := by
  rw [tree, Node.children, trees_singleton] <;> simp

/-- `tree` of a return is that of what is returned. -/
theorem tree_returnStatement {span : Span} {argument : Node} :
    tree outer frame (.returnStatement span argument) = tree outer frame argument := by
  rw [tree, Node.children, trees_present, trees_singleton] <;> simp

/-- `tree` does nothing for an expression that may be left out. -/
theorem tree_of_absent_or_isExpression {node : Node} (h : node = .absent ∨ IsExpression node) :
    tree outer frame node = (frame, []) := by
  rcases h with rfl | h
  · exact tree_absent
  · exact tree_of_isExpression h

end

end Lexical

/-! ## Steps in a nested table -/

/-- A nested table whose scopes hold what frames say, from the inside: `frame` is the innermost, and
`outer` are those around it. -/
structure SymbolTable.IsNested (outer : List Known) (frame : Known) (table : SymbolTable) :
    Prop where
  nested : table.nested = true
  holds : List.Forall₂ Scope.Holds table.scopes (frame :: outer)

namespace SymbolTable.IsNested

variable {outer : List Known} {frame inner : Known} {table : SymbolTable}

/-- `lookup?` in the table finds what `find?` does in the frames. -/
theorem lookup?_eq (h : table.IsNested outer frame) (name : String) :
    table.lookup? name = Lexical.find? (frame :: outer) name := by
  have hfind {scopes : List Scope} {frames : List Known}
      (hholds : List.Forall₂ Scope.Holds scopes frames) :
      scopes.findSome? (·.find? name) = frames.findSome? (· name) := by
    induction hholds with
    | nil => rfl
    | cons hscope _ ih => rw [List.findSome?_cons, List.findSome?_cons, hscope.find?_eq, ih]
  exact hfind h.holds

/-- `typeOf?` in the table gives what it does in the frames. -/
theorem typeOf?_eq (h : table.IsNested outer frame) :
    table.typeOf? = Lexical.typeOf? (frame :: outer) := by
  funext name
  rw [typeOf?, h.lookup?_eq, Lexical.typeOf?]

/-- `define` makes a variable known in the innermost frame. -/
theorem define (h : table.IsNested outer frame) (symbol : Symbol) :
    (table.define symbol).IsNested outer (frame.define symbol) := by
  obtain ⟨nested, inner, document⟩ := table
  obtain ⟨rfl, hholds⟩ := h
  refine ⟨by cases inner <;> rfl, ?_⟩
  cases inner with
  | nil =>
    obtain ⟨hdocument, hrest⟩ := List.forall₂_cons.mp hholds
    exact .cons (hdocument.define symbol) hrest
  | cons scope scopes =>
    obtain ⟨hscope, hrest⟩ := List.forall₂_cons.mp hholds
    exact .cons (hscope.define symbol) hrest

/-- `enter` adds a frame without variables. -/
theorem enter (h : table.IsNested outer frame) (kind : ScopeKind) :
    (table.enter kind).IsNested (frame :: outer) .nothing := by
  obtain ⟨nested, scopes, document⟩ := table
  obtain ⟨rfl, hholds⟩ := h
  exact ⟨rfl, .cons (.empty kind) hholds⟩

/-- `exit` leaves the frames around the innermost one. -/
theorem exit (h : table.IsNested (frame :: outer) inner) : table.exit.IsNested outer frame := by
  obtain ⟨nested, scopes, document⟩ := table
  obtain ⟨rfl, hholds⟩ := h
  cases scopes with
  | nil => cases (List.forall₂_cons.mp hholds).2
  | cons scope scopes => exact ⟨rfl, (List.forall₂_cons.mp hholds).2⟩

end SymbolTable.IsNested

namespace Check

variable {outer : List Known}

/-- `inScope` leaves the frame of its place as it is. -/
theorem follows_inScope {step : Check Unit} {result : Known → Known → Known × List TypeMismatch}
    (kind : ScopeKind)
    (h : ∀ frame, Follows (SymbolTable.IsNested (frame :: outer)) step (result frame)) :
    Follows (SymbolTable.IsNested outer) (inScope kind step) fun frame =>
      (frame, (result frame .nothing).2) := by
  intro frame state hnested
  obtain ⟨table, htable, hrun⟩ := h frame .nothing ⟨state.table.enter kind, state.mismatches⟩
    (hnested.enter kind)
  refine ⟨table.exit, htable.exit, ?_⟩
  rw [run_inScope, hrun]

/-- A tree is checked by frames (`Lexical.tree`) wherever it stands. -/
def Scopes (node : Node) : Prop :=
  ∀ outer, Follows (SymbolTable.IsNested outer) (tree node) (Lexical.tree outer · node)

/-- `trees` follow the frames if each `tree` does. -/
theorem follows_trees {nodes : List Node} (h : ∀ node ∈ nodes, Scopes node) :
    Follows (SymbolTable.IsNested outer) (trees nodes) (Lexical.trees outer · nodes) := by
  induction nodes with
  | nil =>
    simp only [trees, Lexical.trees]
    exact follows_pure
  | cons node nodes ih =>
    obtain ⟨hnode, hnodes⟩ := List.forall_mem_cons.mp h
    simp only [trees, Lexical.trees_cons]
    exact (hnode outer).bind (ih hnodes)

/-- `Scopes` holds of an expression, which is no step of either check. -/
theorem scopes_of_isExpression {node : Node} (h : node = .absent ∨ IsExpression node) :
    Scopes node := by
  intro outer
  rw [tree_of_absent_or_isExpression h]
  simp only [Lexical.tree_of_absent_or_isExpression h]
  exact follows_pure

/-- `Scopes` holds of a binding, which is judged by the frames around it. -/
theorem scopes_binding {node : Node} (h : IsDeclaration node ∨ IsAssignment node) :
    Scopes node := by
  intro outer
  simp only [Lexical.tree_binding h]
  exact follows_binding (fun _ _ hnested => hnested.typeOf?_eq)
    (fun _ _ symbol hnested => hnested.define symbol) h

/-- `Scopes` holds of a block, which has a frame of its own. -/
theorem scopes_block {span : Span} {nodes : List Node} (h : ∀ node ∈ nodes, Scopes node) :
    Scopes (.block span nodes) := by
  intro outer
  simp only [tree, Lexical.tree]
  exact follows_inScope .block fun _ => follows_trees h

/-- `defineParams` makes parameters known inside the function, each of any type. -/
theorem follows_defineParams {params : List Node}
    (h : ∀ param ∈ params, ∃ span name, param = .identifier span name) :
    Follows (SymbolTable.IsNested outer) (defineParams params)
      fun frame => (params.foldl Lexical.param frame, []) := by
  have hparams : Follows (SymbolTable.IsNested outer) (params.forM defineParam)
      fun frame => (params.foldl Lexical.param frame, []) := by
    induction params with
    | nil => exact follows_pure
    | cons param params ih =>
      obtain ⟨⟨span, name, rfl⟩, hparams⟩ := List.forall_mem_cons.mp h
      have hparam : Follows (SymbolTable.IsNested outer) (defineParam (.identifier span name))
          fun frame => (Lexical.param frame (.identifier span name), []) := by
        intro frame state hnested
        exact ⟨_, hnested.define ⟨name, .any, some span.start⟩, by rw [List.append_nil]; rfl⟩
      exact hparam.bind (ih hparams)
  intro frame state hnested
  have hrun : (defineParams params).run state = (params.forM defineParam).run state := by
    rw [defineParams, run_table_bind, hnested.nested, if_pos rfl]
  rw [hrun]
  exact hparams frame state hnested

/-- `Scopes` holds of a conditional, whose parts are trees in the frame of its place. -/
theorem scopes_ifStatement {span : Span} {test consequent alternate : Node}
    (htest : Scopes test) (hconsequent : Scopes consequent) (halternate : Scopes alternate) :
    Scopes (.ifStatement span test consequent alternate) := by
  intro outer
  have htrees : tree (.ifStatement span test consequent alternate) =
      trees [test, consequent, alternate] := by
    simp only [tree, trees, bind_pure_unit]
  simp only [htrees, Lexical.tree_ifStatement]
  exact follows_trees (by simpa using ⟨htest, hconsequent, halternate⟩)

/-- `Scopes` holds of every statement. -/
theorem scopes_of_isStatement {node : Node} (h : IsStatement node) : Scopes node := by
  induction h with
  | declaration h => exact scopes_binding (.inl h)
  | assignment h _ => exact scopes_binding (.inr h)
  | expression h _ =>
    intro outer
    simp only [tree, Lexical.tree_expressionStatement]
    exact scopes_of_isExpression (.inr h) outer
  | returns h =>
    intro outer
    simp only [tree, Lexical.tree_returnStatement]
    exact scopes_of_isExpression h outer
  | conditional htest _ ih =>
    exact scopes_ifStatement (scopes_of_isExpression (.inr htest)) (scopes_block ih)
      (scopes_of_isExpression (.inl rfl))
  | conditionalElse htest _ _ ih ihother =>
    exact scopes_ifStatement (scopes_of_isExpression (.inr htest)) (scopes_block ih)
      (scopes_block ihother)
  | conditionalChain htest _ _ ih ihnext =>
    exact scopes_ifStatement (scopes_of_isExpression (.inr htest)) (scopes_block ih) ihnext
  | @loop span bodySpan test body htest _ ih =>
    intro outer
    -- a loop with a condition opens no scope besides that of its body
    have htrees : tree (.whileStatement span test (.block bodySpan body)) =
        trees [test, .block bodySpan body] := by
      simp only [tree, trees, bind_pure_unit]
    simp only [htrees, Lexical.tree_whileStatement]
    refine follows_trees ?_
    simpa using ⟨scopes_of_isExpression (.inr htest), scopes_block ih⟩
  | @forLoop span bodySpan init test update body hinit htest hupdate _ ih =>
    intro outer
    -- what the first clause declares is known in all of the loop, whose scope is around its parts
    have htrees : tree (.forStatement span init test update (.block bodySpan body)) =
        inScope .loop (trees [init, test, update, .block bodySpan body]) := by
      simp only [tree, trees, bind_pure_unit]
    have hinit : Scopes init :=
      (initClause_cases hinit).elim scopes_of_isExpression scopes_binding
    have hupdate : Scopes update :=
      (updateClause_cases hupdate).elim scopes_of_isExpression scopes_binding
    simp only [htrees, Lexical.tree]
    refine follows_inScope .loop fun _ => follows_trees ?_
    simpa using ⟨hinit, scopes_of_isExpression htest, hupdate, scopes_block ih⟩
  | @function _ _ _ _ params _ _ _ _ ih =>
    intro outer
    simp only [tree, Lexical.tree]
    have hparams : ∀ param ∈ params.map fun param => Node.identifier param.1 param.2,
        ∃ span name, param = .identifier span name := by
      intro param hparam
      obtain ⟨param, -, rfl⟩ := List.mem_map.mp hparam
      exact ⟨_, _, rfl⟩
    exact follows_inScope .function fun _ => (follows_defineParams hparams).bind (follows_trees ih)
  | declaredClass _ _ ih =>
    intro outer
    simp only [tree, Lexical.tree]
    exact follows_inScope .classBody fun _ => follows_trees ih

end Check

/-! ## The check of a document -/

namespace Lexical

/-- Whether a statement is a declaration. -/
def isDeclaration : Node → Bool
  | .variableDeclaration .. => true
  | _ => false

/-- `trees` keep the frame of their place if each `tree` does. -/
theorem trees_frame_eq {outer : List Known} {frame : Known} {nodes : List Node}
    (h : ∀ node ∈ nodes, (tree outer frame node).1 = frame) :
    (trees outer frame nodes).1 = frame := by
  induction nodes with
  | nil => rw [trees]
  | cons node nodes ih =>
    obtain ⟨hnode, hnodes⟩ := List.forall_mem_cons.mp h
    rw [trees_cons, hnode, ih hnodes]

/-- `tree` keeps the frame of its place for a statement that is no declaration. -/
theorem tree_frame_of_isStatement {outer : List Known} {frame : Known} {node : Node}
    (h : IsStatement node) (hnode : isDeclaration node = false) :
    (tree outer frame node).1 = frame := by
  have hexpression {node : Node} (h : node = .absent ∨ IsExpression node) :
      (tree outer frame node).1 = frame := by
    rw [tree_of_absent_or_isExpression h]
  have hblock {span : Span} {nodes : List Node} :
      (tree outer frame (.block span nodes)).1 = frame := by
    rw [tree]
  induction h with
  | declaration h =>
    cases h
    cases hnode
  | assignment h _ =>
    cases h
    rw [tree, Node.judgement]
    split
    · rfl
    · rfl
    · split <;> rfl
  | expression h _ =>
    rw [tree_expressionStatement]
    exact hexpression (.inr h)
  | returns h =>
    rw [tree_returnStatement]
    exact hexpression h
  | conditional htest _ _ =>
    rw [tree_ifStatement]
    exact trees_frame_eq (by simp [hexpression (.inr htest), hblock])
  | conditionalElse htest _ _ _ _ =>
    rw [tree_ifStatement]
    exact trees_frame_eq (by simp [hexpression (.inr htest), hblock])
  | conditionalChain htest _ _ _ ih =>
    rw [tree_ifStatement]
    exact trees_frame_eq (by simp [hexpression (.inr htest), hblock, ih rfl])
  | loop htest _ _ =>
    rw [tree_whileStatement]
    exact trees_frame_eq (by simp [hexpression (.inr htest), hblock])
  -- these have a frame of their own, and what it holds is dropped
  | forLoop | function | declaredClass => rw [tree]

/-- `trees` leaves the frame of the document with what the declarations among its statements make
known, one after the other, whatever stands inside the others. -/
theorem trees_frame {statements : List Node} (h : ∀ statement ∈ statements, IsStatement statement)
    (frame : Known) :
    (trees [] frame statements).1 = (frame.settle (statements.filter isDeclaration)).1 := by
  induction statements generalizing frame with
  | nil => rw [trees, List.filter_nil, Known.settle]
  | cons statement statements ih =>
    obtain ⟨hstatement, hstatements⟩ := List.forall_mem_cons.mp h
    rw [trees_cons, List.filter_cons, ih hstatements]
    cases hdeclaration : isDeclaration statement with
    | false => rw [tree_frame_of_isStatement hstatement hdeclaration, if_neg Bool.false_ne_true]
    | true =>
      have htree : tree [] frame statement = frame.judged (statement.judgement frame.typeOf?) := by
        cases statement <;> cases hdeclaration
        rw [tree, typeOf?_singleton]
      rw [htree, if_pos rfl, Known.settle]

end Lexical

/-- A check with a nested table comes to the check by frames (`Lexical.trees`). -/
structure ChecksLexically (statements : List Node) (before : List TypeMismatch)
    (outcome : Except Obstacle Unit × Checking) : Prop where
  /-- No statement stops the check. -/
  finished : outcome.1 = .ok ()
  /-- The mismatches come after those noted before, in the order of the check by frames. -/
  mismatches : outcome.2.mismatches = before ++ (Lexical.trees [] .nothing statements).2
  /-- All scopes are closed again. -/
  depth : outcome.2.table.depth = 0
  /-- The scope of the document has what the declarations among its statements define. -/
  globals : outcome.2.table.document.Holds
    (Known.nothing.settle (statements.filter Lexical.isDeclaration)).1

/-- The check of a document with a nested table is that by frames (`Lexical.trees`). -/
theorem checkStatements_nested {text : List Char} {reading : Reading}
    (h : readDocument text = .ok reading) (before : List TypeMismatch) :
    ChecksLexically reading.statements before
      (checkStatements true reading.statements before) := by
  have hstatements := isStatement_of_readDocument h
  have hempty : (SymbolTable.empty true).IsNested [] .nothing :=
    ⟨rfl, .cons (.empty .document) .nil⟩
  obtain ⟨table, htable, hrun⟩ :=
    Check.follows_trees (fun statement hstatement =>
      Check.scopes_of_isStatement (hstatements statement hstatement))
      .nothing ⟨.empty true, before⟩ hempty
  unfold checkStatements
  rw [hrun]
  obtain ⟨nested, inner, document⟩ := table
  obtain ⟨rfl, hholds⟩ := htable
  -- There is one frame, so the only scope that is open is that of the document.
  obtain rfl : inner = [] := by
    simpa [SymbolTable.scopes] using hholds.length_eq
  rw [Lexical.trees_frame hstatements] at hholds
  exact ⟨rfl, rfl, rfl, (List.forall₂_cons.mp hholds).1⟩

/-- In a body a string may be assigned to a variable that is declared there, and no longer behind
the body, where its name is that of a number. -/
theorem checkStatements_nested_body :
    let text := "var int x; if (b) \x7b var x; x = 's'; \x7d x = 's';".toList
    ∃ reading, readDocument text = .ok reading ∧
      ChecksLexically reading.statements [] (checkStatements true reading.statements []) ∧
      (checkStatements true reading.statements []).2.mismatches.map (·.span.start) = [42] := by
  intro text
  have htokens : tokenize text = .ok [⟨.keyword, "var", 0, 3⟩, ⟨.keyword, "int", 4, 7⟩,
      ⟨.identifier, "x", 8, 9⟩, ⟨.symbol, ";", 9, 10⟩, ⟨.keyword, "if", 11, 13⟩,
      ⟨.symbol, "(", 14, 15⟩, ⟨.identifier, "b", 15, 16⟩, ⟨.symbol, ")", 16, 17⟩,
      ⟨.symbol, "\x7b", 18, 19⟩, ⟨.keyword, "var", 20, 23⟩, ⟨.identifier, "x", 24, 25⟩,
      ⟨.symbol, ";", 25, 26⟩, ⟨.identifier, "x", 27, 28⟩, ⟨.symbol, "=", 29, 30⟩,
      ⟨.string, "'s'", 31, 34⟩, ⟨.symbol, ";", 34, 35⟩, ⟨.symbol, "\x7d", 36, 37⟩,
      ⟨.identifier, "x", 38, 39⟩, ⟨.symbol, "=", 40, 41⟩, ⟨.string, "'s'", 42, 45⟩,
      ⟨.symbol, ";", 45, 46⟩] := by decide +kernel
  obtain ⟨reading, hreading, -, -⟩ := exists_reading htokens
  have hchecks := checkStatements_nested hreading []
  refine ⟨reading, hreading, hchecks, ?_⟩
  have hstatements : reading.statements = [
      .variableDeclaration (.between 0 10) (some "int") (.identifier (.between 8 9) "x") .absent,
      .ifStatement (.between 11 37) (.identifier (.between 15 16) "b") (.block (.between 18 37)
        [.variableDeclaration (.between 20 26) none (.identifier (.between 24 25) "x") .absent,
          .assignment (.between 27 35) "=" (.identifier (.between 27 28) "x")
            (.literal (.between 31 34) (.ofQuoted "'s'") "'s'" "string")]) .absent,
      .assignment (.between 38 46) "=" (.identifier (.between 38 39) "x")
        (.literal (.between 42 45) (.ofQuoted "'s'") "'s'" "string")] :=
    (reading_eq htokens hreading).1
  -- by the theorem above the mismatches are those found by frames, which can be computed
  rw [hchecks.mismatches, hstatements]
  simp only [Lexical.trees_cons, Lexical.trees, Lexical.tree_ifStatement, Lexical.tree,
    Lexical.tree_identifier, Lexical.tree_absent]
  decide

end NeutronLang
