import NeutronLang.Node.Record
import NeutronLang.Proofs.ReadTrees

/-!
# Declarations and assignments in the order of the document

The bindings of a tree are its declarations and its assignments at any depth, each node before those
below it and children in their order. In the tree of a document this is the order of the text: along
the course of a reading each binding starts at a token of its own, and so does its value
(`Node.marks`), whatever recovery leaves out in between.
-/

namespace NeutronLang

open Grammar Rendering

namespace Node

/-! ## Bindings -/

/-- The `children` of a node are among its `contents`, in the same order. -/
theorem children_sublist_contents (node : Node) : node.children.Sublist node.contents := by
  cases node <;> simp only [children, present, contents, fields, Field.contents, List.flatMap_cons,
    List.flatMap_nil, List.append_nil, List.nil_append, List.cons_append]
  case variableDeclaration => exact List.filter_sublist.cons_cons _
  case ifStatement => exact (List.filter_sublist.cons_cons _).cons_cons _
  case forStatement | returnStatement => exact List.filter_sublist
  all_goals exact .refl _

/-- `present` goes through nodes one after the other. -/
theorem present_append (nodes more : List Node) :
    present (nodes ++ more) = present nodes ++ present more := List.filter_append ..

/-- `sizes` of fewer nodes are no larger. -/
theorem sizes_le_of_sublist {nodes more : List Node} (h : nodes.Sublist more) :
    sizes nodes ≤ sizes more := by
  induction h with
  | slnil => exact Nat.le_refl _
  | cons node _ ih => exact Nat.le_trans ih (Nat.le_add_left _ _)
  | cons_cons node _ ih => exact Nat.add_le_add_left ih _

/-- `sizes` of the children of a node are less than that of the node. -/
theorem sizes_children_lt (node : Node) : sizes node.children < sizeOf node :=
  Nat.lt_of_le_of_lt (sizes_le_of_sublist node.children_sublist_contents) node.sizes_contents_lt

/-- A child of a node is smaller than the node. -/
theorem sizeOf_child_lt {node child : Node} (h : child ∈ node.children) :
    sizeOf child < sizeOf node := by
  have hle := sizes_le_of_sublist (List.singleton_sublist.mpr h)
  exact Nat.lt_of_le_of_lt hle node.sizes_children_lt

/-- A node and all nodes below it, each before those below it. -/
def subtrees (node : Node) : List Node :=
  node :: node.children.attach.flatMap fun child => child.1.subtrees
termination_by sizeOf node
decreasing_by exact sizeOf_child_lt child.2

/-- The `subtrees` of a tree are its root and then those of its children in order. -/
theorem subtrees_eq (node : Node) : node.subtrees = node :: node.children.flatMap subtrees := by
  rw [subtrees, List.flatMap_subtype fun _ _ => rfl, List.unattach_attach]

/-- What holds of the `subtrees` of a tree holds of its root and of the subtrees of its children. -/
theorem forall_subtrees_iff {P : Node → Prop} {node : Node} :
    (∀ tree ∈ node.subtrees, P tree) ↔
      P node ∧ ∀ child ∈ node.children, ∀ tree ∈ child.subtrees, P tree := by
  rw [subtrees_eq, List.forall_mem_cons]
  simp only [List.mem_flatMap, forall_exists_index, and_imp]
  exact and_congr_right fun _ => ⟨fun h child hchild tree htree => h tree child hchild htree,
    fun h tree child hchild htree => h child hchild tree htree⟩

/-- Whether a node binds a value to a name: a declaration or an assignment. -/
def isBinding : Node → Bool
  | variableDeclaration .. | assignment .. => true
  | _ => false

/-- The declarations and assignments of a tree, at any depth: the `subtrees` that bind. -/
def bindings (node : Node) : List Node := node.subtrees.filter (·.isBinding)

/-- The `bindings` of a tree are its root, if it is one, and those of its children in order. -/
theorem bindings_eq (node : Node) :
    node.bindings = [node].filter (·.isBinding) ++ node.children.flatMap bindings := by
  rw [bindings, subtrees_eq, ← List.singleton_append, List.filter_append, List.filter_flatMap]
  rfl

/-- Absent nodes hold no `bindings`, so it makes no difference whether they are left out. -/
theorem bindings_present (nodes : List Node) :
    (present nodes).flatMap bindings = nodes.flatMap bindings := by
  induction nodes with
  | nil => rfl
  | cons node nodes ih =>
    cases node
    case absent => simpa [present, isAbsent, bindings_eq absent, children, isBinding] using ih
    all_goals simpa [present, isAbsent] using ih

/-- A node holds no `bindings` if it is none and its children hold none. -/
theorem bindings_eq_nil {node : Node} (hnode : node.isBinding = false)
    (hchildren : ∀ child ∈ node.children, child.bindings = []) : node.bindings = [] := by
  rw [bindings_eq, List.flatMap_eq_nil_iff.mpr hchildren, List.append_nil]
  simp [hnode]

/-- Expressions hold no `bindings`. -/
theorem bindings_of_isExpression {node : Node} (h : IsExpression node) : node.bindings = [] := by
  induction h with
  | number | string | true | false | nil | name => exact bindings_eq_nil rfl (by simp [children])
  | binary _ _ _ _ ihleft ihright | logical _ _ _ ihleft ihright =>
    exact bindings_eq_nil rfl (by simp [children, ihleft, ihright])
  | unary _ _ ih => exact bindings_eq_nil rfl (by simp [children, ih])
  | call _ _ _ ihcallee ih =>
    refine bindings_eq_nil rfl fun child hchild => ?_
    rcases List.mem_cons.mp hchild with rfl | hargument
    · exact ihcallee
    · exact ih child hargument
  | member _ _ _ ih =>
    refine bindings_eq_nil rfl fun child hchild => ?_
    -- names and keys are no expressions by themselves, so the induction leaves them out
    have hname {span : Span} {name : String} : (identifier span name).bindings = [] :=
      bindings_eq_nil rfl (by simp [children])
    simp only [children, List.mem_cons, List.not_mem_nil, or_false] at hchild
    rcases hchild with rfl | rfl
    · exact ih
    · exact hname
  | array _ ih => exact bindings_eq_nil rfl ih
  | object _ _ ih =>
    refine bindings_eq_nil rfl fun child hchild => ?_
    obtain ⟨entry, hentry, rfl⟩ := List.mem_map.mp hchild
    have hkey {span : Span} {value : LiteralValue} {raw type : String} :
        (literal span value raw type).bindings = [] := bindings_eq_nil rfl (by simp [children])
    exact bindings_eq_nil rfl (by simp [Entry.node, children, ih entry hentry, hkey])

/-! ## Bindings of statements -/

section

variable {span : Span}

/-- A node that is no binding has the `bindings` of its children. -/
theorem bindings_of_not_isBinding {node : Node} (h : node.isBinding = false) :
    node.bindings = node.children.flatMap bindings := by
  rw [bindings_eq]
  simp [h]

@[simp] theorem bindings_absent : absent.bindings = [] := bindings_of_not_isBinding rfl

@[simp] theorem bindings_identifier {name : String} : (identifier span name).bindings = [] :=
  bindings_of_not_isBinding rfl

@[simp] theorem bindings_block {body : List Node} :
    (block span body).bindings = body.flatMap bindings :=
  bindings_of_not_isBinding rfl

@[simp] theorem bindings_variableDeclaration {type : Option String} {name init : Node} :
    (variableDeclaration span type name init).bindings =
      variableDeclaration span type name init :: (name.bindings ++ init.bindings) := by
  rw [bindings_eq, children, List.flatMap_cons, bindings_present]
  simp [isBinding]

@[simp] theorem bindings_assignment {operator : String} {target value : Node} :
    (assignment span operator target value).bindings =
      assignment span operator target value :: (target.bindings ++ value.bindings) := by
  rw [bindings_eq]
  simp [children, isBinding]

@[simp] theorem bindings_ifStatement {test consequent alternate : Node} :
    (ifStatement span test consequent alternate).bindings =
      test.bindings ++ (consequent.bindings ++ alternate.bindings) := by
  rw [bindings_of_not_isBinding rfl, children, List.flatMap_cons, List.flatMap_cons,
    bindings_present]
  simp

@[simp] theorem bindings_whileStatement {test body : Node} :
    (whileStatement span test body).bindings = test.bindings ++ body.bindings := by
  rw [bindings_of_not_isBinding rfl]
  simp [children]

@[simp] theorem bindings_forStatement {init test update body : Node} :
    (forStatement span init test update body).bindings =
      init.bindings ++ (test.bindings ++ (update.bindings ++ body.bindings)) := by
  rw [bindings_of_not_isBinding rfl, children, bindings_present]
  simp

@[simp] theorem bindings_functionDeclaration {name body : Node} {params : List Node} :
    (functionDeclaration span name params body).bindings =
      name.bindings ++ (params.flatMap bindings ++ body.bindings) := by
  rw [bindings_of_not_isBinding rfl]
  simp [children]

@[simp] theorem bindings_classDeclaration {name body : Node} :
    (classDeclaration span name body).bindings = name.bindings ++ body.bindings := by
  rw [bindings_of_not_isBinding rfl]
  simp [children]

@[simp] theorem bindings_returnStatement {argument : Node} :
    (returnStatement span argument).bindings = argument.bindings := by
  rw [bindings_of_not_isBinding rfl, children, bindings_present]
  simp

@[simp] theorem bindings_expressionStatement {expression : Node} :
    (expressionStatement span expression).bindings = expression.bindings := by
  rw [bindings_of_not_isBinding rfl]
  simp [children]

end

/-! ## The order of bindings -/

/-- Where a binding starts and, if it has a value, where the value does; other nodes have no
`marks`. -/
def marks : Node → List Int
  | variableDeclaration span _ _ value | assignment span _ _ value =>
    span.start :: (present [value]).map (·.span.start)
  | _ => []

/-- Each of the `bindings` starts at one of its `marks`. -/
theorem starts_sublist_marks (trees : List Node) :
    ((trees.flatMap bindings).map (·.span.start)).Sublist
      ((trees.flatMap bindings).flatMap marks) := by
  have hbindings : ∀ binding ∈ trees.flatMap bindings, binding.isBinding = true := by
    intro binding hbinding
    obtain ⟨tree, -, hbinding⟩ := List.mem_flatMap.mp hbinding
    exact (List.mem_filter.mp hbinding).2
  generalize trees.flatMap bindings = nodes at hbindings
  induction nodes with
  | nil => exact .slnil
  | cons node nodes ih =>
    obtain ⟨hnode, hnodes⟩ := List.forall_mem_cons.mp hbindings
    cases node
    case variableDeclaration | assignment =>
      exact .cons_cons _ ((ih hnodes).trans (List.sublist_append_right _ _))
    all_goals cases hnode

end Node

/-- The bindings of `trees` and their values start one after the other at tokens, in their order. -/
def Marks (tokens : List Token) (trees : List Node) : Prop :=
  ((trees.flatMap Node.bindings).flatMap Node.marks).Sublist (tokens.map Token.start)

namespace Marks

variable {tokens more : List Token} {trees rest : List Node}

/-- `Marks` holds of trees without bindings. -/
theorem of_bindings_eq_nil (h : trees.flatMap Node.bindings = []) : Marks tokens trees := by
  rw [Marks, h]
  exact List.nil_sublist _

/-- `Marks` stays true with tokens in between. -/
theorem mono (h : Marks tokens trees) (hsublist : tokens.Sublist more) : Marks more trees :=
  List.Sublist.trans h (hsublist.map _)

/-- `Marks` stays true with one token more before the others. -/
theorem cons (h : Marks tokens trees) (token : Token) : Marks (token :: tokens) trees :=
  h.mono (List.sublist_cons_self token tokens)

/-- `Marks` depends on the bindings of the trees alone. -/
theorem of_bindings_eq (h : Marks tokens trees)
    (heq : rest.flatMap Node.bindings = trees.flatMap Node.bindings) : Marks tokens rest := by
  rw [Marks, heq]
  exact h

/-- `Marks` holds of trees that are read one after the other. -/
theorem append (h : Marks tokens trees) (hmore : Marks more rest) :
    Marks (tokens ++ more) (trees ++ rest) := by
  rw [Marks, List.flatMap_append, List.flatMap_append, List.map_append]
  exact List.Sublist.append h hmore

end Marks

namespace Grammar

/-- The trees of a `Phrase`; one that fails has none. -/
def Phrase.trees : Phrase → List Node
  | .statement answer => answer.toList
  | .list _ nodes => nodes
  | .body found => found.statements
  | .attempt result | .conditional _ result | .alternate result => result.toOption.toList

variable {tokens : List Token} {tree : Node}

/-- An expression holds no `bindings`. -/
theorem bindings_of_derives (h : Derives 1 tokens tree) (hwords : ∀ token ∈ tokens, IsWord token) :
    tree.bindings = [] :=
  Node.bindings_of_isExpression (isExpression_of_derives h hwords).1

/-- An expression that may be left out holds no `bindings`. -/
theorem bindings_of_derivesOptional (h : DerivesOptional tokens tree)
    (hwords : ∀ token ∈ tokens, IsWord token) : tree.bindings = [] := by
  cases h with
  | absent => exact Node.bindings_absent
  | expression h => exact bindings_of_derives h hwords

/-- The value of a binding, if it has one, starts at one of its tokens. -/
theorem exists_start_of_present (h : Derives 1 tokens tree) :
    ((Node.present [tree]).map (·.span.start)).Sublist (tokens.map Token.start) := by
  obtain ⟨token, htoken, hstart⟩ := h.exists_start
  cases hpresent : tree.isAbsent
  · simp only [Node.present, List.filter_cons, hpresent, Bool.not_false, if_true, List.filter_nil,
      List.map_cons, List.map_nil, hstart, List.singleton_sublist]
    exact List.mem_map_of_mem htoken
  · simp [Node.present, hpresent]

/-- `Marks` holds of an expression or an assignment, which starts at a token, as does its value. -/
theorem marks_of_derivesAssignable (h : DerivesAssignable tokens tree)
    (hwords : ∀ token ∈ tokens, IsWord token) : Marks tokens [tree] := by
  cases h with
  | expression h => exact .of_bindings_eq_nil (by simp [bindings_of_derives h hwords])
  | @assignment equals targetTokens valueTokens _ _ value htarget _ hvalue =>
    obtain ⟨token, htoken, hstart⟩ := htarget.exists_start
    have hbindings := bindings_of_derives hvalue fun token htoken =>
      hwords token (List.mem_append_right _ (List.mem_cons_of_mem _ htoken))
    replace hstart : _ = token.start := hstart
    simp only [Marks, List.flatMap_cons, List.flatMap_nil, List.append_nil,
      Node.bindings_assignment, Node.bindings_identifier, hbindings, Node.marks,
      Span.between_start, List.map_append, List.map_cons, Node.span] at hstart ⊢
    rw [hstart, ← List.singleton_append]
    exact (List.singleton_sublist.mpr (List.mem_map_of_mem htoken)).append
      ((exists_start_of_present hvalue).cons _)

/-- `Marks` holds of a declaration, which starts with its keyword, and its value at a token behind
it. -/
theorem marks_of_derivesBinding {keyword : Token} {found : Binding}
    (h : DerivesBinding keyword tokens found) (hwords : ∀ token ∈ tokens, IsWord token)
    (stop : Int) : Marks (keyword :: tokens) [found.node stop] := by
  cases h with
  | @mk type name tokens init _ _ hinit =>
    have hword (token : Token) (htoken : token ∈ tokens) : IsWord token :=
      hwords token (List.mem_append_right _ (List.mem_cons_of_mem _ htoken))
    suffices hvalue : init.bindings = [] ∧
        ((Node.present [init]).map (·.span.start)).Sublist (tokens.map Token.start) by
      obtain ⟨hbindings, hsublist⟩ := hvalue
      simp only [Marks, Binding.node, List.flatMap_cons, List.flatMap_nil, List.append_nil,
        Node.bindings_variableDeclaration, Token.node, Node.bindings_identifier, hbindings,
        Node.marks, Span.between_start, List.map_cons, List.map_append]
      exact .cons_cons _ ((hsublist.cons _).trans (List.sublist_append_right _ _))
    cases hinit with
    | absent => exact ⟨Node.bindings_absent, List.nil_sublist _⟩
    | value _ hvalue =>
      exact ⟨bindings_of_derives hvalue fun token htoken =>
        hword token (List.mem_cons_of_mem _ htoken), (exists_start_of_present hvalue).cons _⟩

/-- `Marks` holds of what a loop can start with. -/
theorem marks_of_derivesLoopInit (h : DerivesLoopInit tokens tree)
    (hwords : ∀ token ∈ tokens, IsWord token) : Marks tokens [tree] := by
  cases h with
  | absent => exact .of_bindings_eq_nil (by simp)
  | binding _ h =>
    exact marks_of_derivesBinding h
      (fun token htoken => hwords token (List.mem_cons_of_mem _ htoken)) _
  | assignable h => exact marks_of_derivesAssignable h hwords

/-- `Marks` holds of the last clause of a loop. -/
theorem marks_of_derivesLoopUpdate (h : DerivesLoopUpdate tokens tree)
    (hwords : ∀ token ∈ tokens, IsWord token) : Marks tokens [tree] := by
  cases h with
  | absent => exact .of_bindings_eq_nil (by simp)
  | assignable h => exact marks_of_derivesAssignable h hwords

/-- `Marks` holds of what a `Course` reads: its bindings start at its tokens, in their order. -/
theorem Course.exists_marks {lineEnd : Int → Int} {start stop : Cursor} {phrase : Phrase}
    {events : List Event} (h : Course lineEnd start phrase stop events)
    (hwords : ∀ token ∈ start.tokens, IsWord token) :
    ∃ read, start.Reads read stop ∧ Marks read phrase.trees := by
  induction h with
  | listEnd | atEnd => exact ⟨[], .refl _, .of_bindings_eq_nil rfl⟩
  | listStep _ _ _ ih ihrest =>
    obtain ⟨read, hread, hmarks⟩ := ih hwords
    obtain ⟨more, hmore, hrest⟩ := ihrest (hread.forall_tokens hwords).1
    exact ⟨_, hread.trans hmore, hmarks.append hrest⟩
  | closedBody _ hopening _ _ hclosing ih =>
    obtain ⟨read, hread, hmarks⟩ := ih (hopening.forall_tokens hwords).1
    exact ⟨_, hopening.cons (hread.trans hclosing),
      (hmarks.mono (List.sublist_append_left _ _)).cons _⟩
  | unclosedBody _ hopening _ _ _ ih =>
    obtain ⟨read, hread, hmarks⟩ := ih (hopening.forall_tokens hwords).1
    exact ⟨_, hopening.cons hread, hmarks.cons _⟩
  | singleBody _ _ _ ih => exact ih hwords
  | completed _ ih => exact ih hwords
  | @skipped _ middle _ _ hread =>
    obtain ⟨more, hmore⟩ := exists_reads_synchronize middle
    exact ⟨_, hread.trans hmore, .of_bindings_eq_nil rfl⟩
  | @abandoned _ failure _ hattempt _ =>
    obtain ⟨read, hread, -⟩ := hattempt.reads
    obtain ⟨more, hmore⟩ := exists_reads_synchronize failure.cursor
    exact ⟨_, hread.trans hmore, .of_bindings_eq_nil rfl⟩
  | declaration _ hkeyword hbinding hread hends =>
    obtain ⟨hmiddle, -⟩ := hkeyword.forall_tokens hwords
    obtain ⟨more, hmore⟩ := hends.reads
    have hmarks := marks_of_derivesBinding hbinding (hread.forall_tokens hmiddle).2
    exact ⟨_, hkeyword.cons (hread.trans hmore),
      (hmarks _).mono ((List.sublist_append_left _ _).cons_cons _)⟩
  | ifStatement _ hkeyword _ ih =>
    obtain ⟨read, hread, hmarks⟩ := ih (hkeyword.forall_tokens hwords).1
    exact ⟨_, hkeyword.cons hread, hmarks.cons _⟩
  | whileStatement _ _ htest _ hhead _ ih =>
    obtain ⟨hinner, hphrase⟩ := hhead.forall_tokens hwords
    obtain ⟨read, hread, hmarks⟩ := ih hinner
    have htest := bindings_of_derives htest fun token htoken => hphrase token (by simp [htoken])
    refine ⟨_, hhead.trans hread, .of_bindings_eq (hmarks.mono (List.sublist_append_right _ _)) ?_⟩
    simp [Phrase.trees, Except.toOption, Body.node, htest]
  | forStatement _ _ hinit _ htest _ hupdate _ hhead _ ih =>
    obtain ⟨hinner, hphrase⟩ := hhead.forall_tokens hwords
    obtain ⟨read, hread, hmarks⟩ := ih hinner
    have hinit := marks_of_derivesLoopInit hinit fun token htoken =>
      hphrase token (by simp [htoken])
    have htest := bindings_of_derivesOptional htest fun token htoken =>
      hphrase token (by simp [htoken])
    have hupdate := marks_of_derivesLoopUpdate hupdate fun token htoken =>
      hphrase token (by simp [htoken])
    refine ⟨_, hhead.trans hread,
      .of_bindings_eq ((hinit.append (hupdate.append hmarks)).mono ?_) ?_⟩
    · simp only [List.cons_append, List.append_assoc]
      refine .cons _ (.cons _ (List.Sublist.append (.refl _) (.cons _ ?_)))
      refine List.Sublist.trans ?_ (List.sublist_append_right _ _)
      exact .cons _ (List.Sublist.append (.refl _) (.cons _ (.refl _)))
    · simp [Phrase.trees, Except.toOption, Body.node, htest]
  | function _ hname _ hparams _ hhead _ ih =>
    obtain ⟨hinner, -⟩ := hhead.forall_tokens hwords
    obtain ⟨read, hread, hmarks⟩ := ih hinner
    refine ⟨_, hhead.trans hread, .of_bindings_eq (hmarks.mono (List.sublist_append_right _ _)) ?_⟩
    cases hparams with
    | mk => simp [Phrase.trees, Except.toOption, Body.node, Token.node, List.flatMap_map]
  | classDeclaration _ _ hhead _ _ ih =>
    obtain ⟨hinner, -⟩ := hhead.forall_tokens hwords
    obtain ⟨read, hread, hmarks⟩ := ih hinner
    refine ⟨_, hhead.trans hread, .of_bindings_eq (hmarks.mono (List.sublist_append_right _ _)) ?_⟩
    simp [Phrase.trees, Except.toOption, Body.node, Token.node]
  | returns _ hargument _ hread _ =>
    have hargument := bindings_of_derivesOptional hargument fun token htoken =>
      (hread.forall_tokens hwords).2 token (by simp [htoken])
    exact ⟨_, hread, .of_bindings_eq_nil (by simp [Phrase.trees, Except.toOption, hargument])⟩
  | expression _ htree hread hends =>
    obtain ⟨more, hmore⟩ := hends.reads
    have htree := bindings_of_derives htree (hread.forall_tokens hwords).2
    exact ⟨_, hread.trans hmore,
      .of_bindings_eq_nil (by simp [Phrase.trees, Except.toOption, htree])⟩
  | assignment _ htree hread hends =>
    obtain ⟨more, hmore⟩ := hends.reads
    have hmarks := marks_of_derivesAssignable htree (hread.forall_tokens hwords).2
    refine ⟨_, hread.trans hmore, Marks.mono ?_ (List.sublist_append_left _ _)⟩
    -- the semicolon is the end of the statement only, so both start at the same place
    simpa [Marks, Phrase.trees, Except.toOption, Node.marks] using hmarks
  | failed _ _ hread => exact ⟨_, hread, .of_bindings_eq_nil rfl⟩
  | conditionalFailed _ hread => exact ⟨_, hread, .of_bindings_eq_nil rfl⟩
  | @conditional _ _ _ _ keyword _ _ _ test consequent result _ _ _ htest _ hhead _ _ ih ihrest =>
    obtain ⟨hinner, hphrase⟩ := hhead.forall_tokens hwords
    obtain ⟨read, hread, hmarks⟩ := ih hinner
    obtain ⟨more, hmore, hrest⟩ := ihrest (hread.forall_tokens hinner).1
    have htest := bindings_of_derives htest fun token htoken => hphrase token (by simp [htoken])
    refine ⟨_, hhead.trans (hread.trans hmore), ?_⟩
    cases result with
    | error failure => exact .of_bindings_eq_nil rfl
    | ok alternate =>
      refine .of_bindings_eq ((hmarks.append hrest).mono (List.sublist_append_right _ _)) ?_
      simp [Phrase.trees, Except.toOption, Except.map, conditionalNode, Body.node, htest]
  | noAlternate =>
    exact ⟨[], .refl _, .of_bindings_eq_nil (by simp [Phrase.trees, Except.toOption])⟩
  | otherwise _ hword _ _ ih =>
    obtain ⟨read, hread, hmarks⟩ := ih (hword.forall_tokens hwords).1
    refine ⟨_, hword.cons hread, .of_bindings_eq (hmarks.cons _) ?_⟩
    simp [Phrase.trees, Except.toOption, Body.node]
  | elseIf _ _ hword _ ih | elif _ hword _ ih =>
    obtain ⟨read, hread, hmarks⟩ := ih (hword.forall_tokens hwords).1
    exact ⟨_, hword.trans hread, hmarks.mono (List.sublist_append_right _ _)⟩

end Grammar

/-- The `bindings` of a document and their values start one after the other. -/
theorem marks_of_readDocument {text : List Char} {reading : Reading}
    (h : readDocument text = .ok reading) :
    ((reading.statements.flatMap Node.bindings).flatMap Node.marks).Pairwise (· < ·) := by
  obtain ⟨tokens, htokens, hcourse⟩ := exists_course h
  obtain ⟨read, hread, hmarks⟩ := hcourse.exists_marks (isWord_of_tokenize htokens)
  obtain rfl : tokens = read := hread.ahead.trans (List.append_nil read)
  refine List.Pairwise.sublist hmarks (List.pairwise_map.mpr ?_)
  obtain ⟨hwithin, hordered, -, -⟩ := Lexicon.tokenize_eq_ok_iff.mp htokens
  refine hordered.imp_of_mem fun htoken _ hle => ?_
  exact Int.lt_of_lt_of_le (hwithin _ htoken).2.1 hle

end NeutronLang
