import NeutronLang.Proofs.SpanOrder

/-!
# Where expressions and assignments start as statements

A name behind a point is that of a member, and a statement that starts with such a name would be one
about another variable. In a document without syntax errors that happens only where no statement
starts with what stands before: then it is skipped up to the next name, the point included. What is
skipped on the way holds no name and no word that starts a statement (`BeginsApart`).

The invariant behind it is about places (`Cursor.Apart`). No statement and no head of one ends with
a point (`Derives.exists_last`), and without errors each of them ends with its last token; so a
place behind a point is one that a search for the next boundary has come to.
-/

namespace NeutronLang

open Grammar Lexicon

/-! ## Lists of statements -/

namespace Node

/-- The statements that a node lists. -/
def listed : Node → List Node
  | .program _ statements _ | .block _ statements => statements
  | _ => []

/-- The statements in the lists of a tree (`listed`), at any depth. -/
def statements (node : Node) : List Node := node.subtrees.flatMap listed

/-- Whether a statement is an expression or an assignment. -/
def isPlain : Node → Bool
  | .expressionStatement .. | .assignment .. => true
  | _ => false

/-- The `statements` of a tree are those that its root lists and those of its children. -/
theorem statements_eq (node : Node) :
    node.statements = node.listed ++ node.children.flatMap statements := by
  rw [statements, subtrees_eq, List.flatMap_cons, List.flatMap_assoc]
  rfl

/-- A tree has no `statements` if its root lists none and its children have none. -/
theorem statements_eq_nil {node : Node} (hlisted : node.listed = [])
    (hchildren : ∀ child ∈ node.children, child.statements = []) : node.statements = [] := by
  rw [statements_eq, hlisted, List.flatMap_eq_nil_iff.mpr hchildren, List.append_nil]

@[simp] theorem statements_absent : absent.statements = [] :=
  statements_eq_nil rfl (by simp [children])

@[simp] theorem statements_identifier {span : Span} {name : String} :
    (identifier span name).statements = [] :=
  statements_eq_nil rfl (by simp [children])

end Node

/-- `P` holds of all expressions and assignments among some trees and in the lists below these. -/
def HoldsOfPlain (P : Node → Prop) (nodes : List Node) : Prop :=
  ∀ node ∈ nodes, (node.isPlain = true → P node) ∧
    ∀ statement ∈ node.statements, statement.isPlain = true → P statement

namespace HoldsOfPlain

variable {P : Node → Prop} {node : Node} {nodes more : List Node}

/-- `HoldsOfPlain` is true of no trees. -/
theorem nil : HoldsOfPlain P [] := by simp [HoldsOfPlain]

/-- `HoldsOfPlain` is true of some trees and of others together. -/
theorem append (h : HoldsOfPlain P nodes) (hmore : HoldsOfPlain P more) :
    HoldsOfPlain P (nodes ++ more) := List.forall_mem_append.mpr ⟨h, hmore⟩

/-- `HoldsOfPlain` is true of an expression or an assignment that has the property and lists
nothing. -/
theorem plain (hnode : P node) (hstatements : node.statements = []) : HoldsOfPlain P [node] := by
  simp [HoldsOfPlain, hnode, hstatements]

/-- `HoldsOfPlain` is true of any other statement without a list. -/
theorem of_statements_eq_nil (hplain : node.isPlain = false) (hstatements : node.statements = []) :
    HoldsOfPlain P [node] := by
  simp [HoldsOfPlain, hplain, hstatements]

/-- The property holds in the lists below a node if `HoldsOfPlain` is true of the children that it
lists. -/
theorem below (h : HoldsOfPlain P nodes) (hlisted : node.listed = nodes)
    (hchildren : node.children = nodes) :
    ∀ statement ∈ node.statements, statement.isPlain = true → P statement := by
  intro statement hstatement
  rw [Node.statements_eq, hlisted, hchildren] at hstatement
  rcases List.mem_append.mp hstatement with hlisted | hbelow
  · exact (h statement hlisted).1
  · obtain ⟨child, hchild, hbelow⟩ := List.mem_flatMap.mp hbelow
    exact (h child hchild).2 statement hbelow

/-- `HoldsOfPlain` is true of any other statement if the property holds in the lists below its
children. -/
theorem of_children (hplain : node.isPlain = false) (hlisted : node.listed = [])
    (h : ∀ child ∈ node.children,
      ∀ statement ∈ child.statements, statement.isPlain = true → P statement) :
    HoldsOfPlain P [node] := by
  intro other hother
  rw [List.mem_singleton.mp hother]
  refine ⟨fun himpossible => ?_, fun statement hstatement => ?_⟩
  · rw [hplain] at himpossible
    cases himpossible
  · rw [Node.statements_eq, hlisted, List.nil_append] at hstatement
    obtain ⟨child, hchild, hbelow⟩ := List.mem_flatMap.mp hstatement
    exact h child hchild statement hbelow

/-- `HoldsOfPlain` is true of a statement with a body if it is of the body, and no other child lists
anything. -/
theorem of_body {found : Body} (h : HoldsOfPlain P found.statements)
    (hplain : node.isPlain = false) (hlisted : node.listed = [])
    (hchildren : ∀ child ∈ node.children, child.statements = [] ∨ child = found.node) :
    HoldsOfPlain P [node] := by
  refine .of_children hplain hlisted fun child hchild => ?_
  rcases hchildren child hchild with hnone | rfl
  · simp [hnone]
  · exact h.below rfl rfl

end HoldsOfPlain

namespace Grammar

variable {tokens : List Token} {tree : Node}

/-- The tree of a phrase that `Derives` gives lists nothing. -/
theorem Derives.statements_eq_nil {level : Nat} (h : Derives level tokens tree) :
    tree.statements = [] := by
  induction h with
  | loosen _ _ _ ih => exact ih
  | binary _ _ _ ihleft ihright =>
    unfold operation
    split <;> exact Node.statements_eq_nil rfl (by simp [Node.children, ihleft, ihright])
  | unary _ _ ih => exact Node.statements_eq_nil rfl (by simp [Node.children, ih])
  | @literal token node hliteral =>
    obtain ⟨value, type, rfl⟩ := exists_eq_of_literal? hliteral
    exact Node.statements_eq_nil rfl (by simp [Node.children])
  | parenthesised _ _ _ ih => exact ih
  | array _ _ _ _ ih =>
    refine Node.statements_eq_nil rfl fun child hchild => ?_
    obtain ⟨element, helement, rfl⟩ := List.mem_map.mp hchild
    exact ih element helement
  | object _ _ _ _ _ ih =>
    refine Node.statements_eq_nil rfl fun child hchild => ?_
    obtain ⟨parts, hparts, rfl⟩ := List.mem_map.mp hchild
    -- a property has its key for a child, which is a literal and no phrase
    have hkey {span : Span} {value : LiteralValue} {raw type : String} :
        (Node.literal span value raw type).statements = [] :=
      Node.statements_eq_nil rfl (by simp [Node.children])
    exact Node.statements_eq_nil rfl
      (by simp [PropertyParts.node, Node.children, hkey, ih parts hparts])
  | name => exact Node.statements_identifier
  | call _ _ _ _ _ ihcallee ih =>
    refine Node.statements_eq_nil rfl fun child hchild => ?_
    rcases List.mem_cons.mp hchild with rfl | hchild
    · exact ihcallee
    · obtain ⟨argument, hargument, rfl⟩ := List.mem_map.mp hchild
      exact ih argument hargument
  | member _ _ _ ih =>
    exact Node.statements_eq_nil rfl (by simp [Node.children, Token.node, ih])

/-- The tree of an expression that may be left out lists nothing. -/
theorem DerivesOptional.statements_eq_nil (h : DerivesOptional tokens tree) :
    tree.statements = [] := by
  cases h with
  | absent => exact Node.statements_absent
  | expression h => exact h.statements_eq_nil

/-- The tree of an expression or of an assignment lists nothing. -/
theorem DerivesAssignable.statements_eq_nil (h : DerivesAssignable tokens tree) :
    tree.statements = [] := by
  cases h with
  | expression h => exact h.statements_eq_nil
  | assignment _ _ hvalue =>
    exact Node.statements_eq_nil rfl (by simp [Node.children, hvalue.statements_eq_nil])

/-- The tree of a declaration lists nothing, wherever it ends. -/
theorem DerivesBinding.statements_eq_nil {keyword : Token} {found : Binding}
    (h : DerivesBinding keyword tokens found) (stop : Int) :
    (found.node stop).statements = [] := by
  cases h with
  | mk _ _ hinit =>
    refine Node.statements_eq_nil rfl fun child hchild => ?_
    rcases List.mem_cons.mp hchild with rfl | hchild
    · exact Node.statements_identifier
    · rw [List.mem_singleton.mp (List.mem_of_mem_filter hchild)]
      cases hinit with
      | absent => exact Node.statements_absent
      | value _ hvalue => exact hvalue.statements_eq_nil

/-- The tree of what a loop can start with lists nothing. -/
theorem DerivesLoopInit.statements_eq_nil (h : DerivesLoopInit tokens tree) :
    tree.statements = [] := by
  cases h with
  | absent => exact Node.statements_absent
  | binding _ h => exact h.statements_eq_nil _
  | assignable h => exact h.statements_eq_nil

/-- The tree of the last clause of a loop lists nothing. -/
theorem DerivesLoopUpdate.statements_eq_nil (h : DerivesLoopUpdate tokens tree) :
    tree.statements = [] := by
  cases h with
  | absent => exact Node.statements_absent
  | assignable h => exact h.statements_eq_nil

/-- The trees of parameters list nothing. -/
theorem DerivesParameters.statements_eq_nil {params : List Node}
    (h : DerivesParameters tokens params) : ∀ param ∈ params, param.statements = [] := by
  cases h with
  | mk => simp [Token.node]

/-! ## First and last tokens -/

/-- A name is not a point. -/
theorem lexeme_ne_of_isIdentifier {token : Token} (hspelled : Spelled token)
    (h : token.isIdentifier = true) : token.lexeme ≠ "." :=
  lexeme_ne_of_spells hspelled (by rw [beq_iff_eq.mp h]; decide)

/-- There are tokens, and the last of them is not a point. -/
def EndsApart (tokens : List Token) : Prop :=
  ∃ before last, tokens = before ++ [last] ∧ last.lexeme ≠ "."

namespace EndsApart

/-- `EndsApart` holds of a single token that is not a point. -/
theorem single {token : Token} (h : token.lexeme ≠ ".") : EndsApart [token] := ⟨[], token, rfl, h⟩

/-- `EndsApart` does not depend on tokens before others. -/
theorem append (before : List Token) (h : EndsApart tokens) : EndsApart (before ++ tokens) := by
  obtain ⟨between, last, rfl, hlast⟩ := h
  exact ⟨before ++ between, last, (List.append_assoc ..).symm, hlast⟩

/-- `EndsApart` does not depend on a token before others. -/
theorem cons (token : Token) (h : EndsApart tokens) : EndsApart (token :: tokens) :=
  h.append [token]

end EndsApart

/-- `EndsApart` holds of every phrase of an expression. -/
theorem Derives.endsApart {level : Nat} (h : Derives level tokens tree)
    (hspelled : ∀ token ∈ tokens, Spelled token) : EndsApart tokens := by
  -- a phrase ends with its right operand, with a bracket or with a single token
  induction h with
  | loosen _ _ _ ih => exact ih hspelled
  | @binary _ operator leftTokens _ _ _ _ _ _ _ ih =>
    exact .append leftTokens (.cons operator (ih fun token htoken =>
      hspelled token (List.mem_append_right _ (List.mem_cons_of_mem _ htoken))))
  | unary _ _ ih =>
    exact .cons _ (ih fun token htoken => hspelled token (List.mem_cons_of_mem _ htoken))
  | @literal token node hliteral =>
    have htoken := hspelled token List.mem_cons_self
    refine .single ?_
    rcases of_literal? hliteral with hkind | hkind | ⟨hkind, -⟩ <;>
      exact lexeme_ne_of_spells htoken (by rw [hkind]; decide)
  | @name token hname =>
    refine .single ?_
    simp only [isOperandName, Bool.or_eq_true, Bool.and_eq_true, beq_iff_eq] at hname
    rcases hname with hname | ⟨-, hthis⟩
    · exact lexeme_ne_of_isIdentifier (hspelled token List.mem_cons_self) hname
    · rw [hthis]
      decide
  | parenthesised _ hclosing | array _ hclosing | object _ hclosing =>
    exact .cons _ (.append _ (.single (by rw [hclosing]; decide)))
  | call _ hclosing =>
    exact .append _ (.cons _ (.append _ (.single (by rw [hclosing]; decide))))
  | @member _ name _ _ _ hname =>
    have hlast := lexeme_ne_of_isIdentifier (hspelled name (by simp)) hname
    exact .append _ (.cons _ (.single hlast))

/-- The tree of a phrase that starts with a name starts there. -/
theorem Derives.start_eq {level : Nat} {first : Token} (h : Derives level tokens tree)
    (hspelled : ∀ token ∈ tokens, Spelled token) (hfirst : first ∈ tokens.head?)
    (hname : first.isIdentifier = true) : tree.span.start = first.start := by
  have hkind : first.kind = .identifier := beq_iff_eq.mp hname
  -- a bracket is no name
  have hsymbol {opening : Token} {lexeme : String} {rest : List Token}
      (hopening : isSymbol lexeme opening = true) (hfirst : first ∈ (opening :: rest).head?) :
      False := by
    cases hfirst
    rw [isSymbol, hkind] at hopening
    cases hopening
  induction h with
  | loosen _ _ _ ih => exact ih hspelled hfirst
  | @binary _ operator _ _ _ _ _ hleft _ ih _ =>
    obtain ⟨head, rest, rfl, -⟩ := hleft.exists_first
    have hstart := ih (fun token htoken => hspelled token (List.mem_append_left _ htoken)) hfirst
    unfold operation
    split <;> exact hstart
  | unary hsign _ _ =>
    cases hfirst
    have hsigns : ∀ lexeme ∈ prefixOperators, spells .identifier lexeme = false := by decide
    have hlexeme := hsigns _ (List.contains_iff_mem.mp hsign)
    rw [← hkind] at hlexeme
    exact absurd rfl (lexeme_ne_of_spells (hspelled first List.mem_cons_self) hlexeme)
  | literal hliteral =>
    cases hfirst
    rcases of_literal? hliteral with hother | hother | ⟨hother, -⟩ <;>
      rw [hkind] at hother <;> cases hother
  | parenthesised hopening | array hopening | object hopening =>
    exact (hsymbol hopening hfirst).elim
  | name =>
    cases hfirst
    rfl
  | call _ _ hcallee _ _ ih _ =>
    obtain ⟨head, rest, rfl, -⟩ := hcallee.exists_first
    exact ih (fun token htoken => hspelled token (List.mem_append_left _ htoken)) hfirst
  | member _ _ howner ih =>
    obtain ⟨head, rest, rfl, -⟩ := howner.exists_first
    exact ih (fun token htoken => hspelled token (List.mem_append_left _ htoken)) hfirst

/-- The tree of an assignment that starts with a name starts there. -/
theorem DerivesAssignable.start_eq {first : Token} (h : DerivesAssignable tokens tree)
    (hspelled : ∀ token ∈ tokens, Spelled token) (hfirst : first ∈ tokens.head?)
    (hname : first.isIdentifier = true) : tree.span.start = first.start := by
  cases h with
  | expression h => exact h.start_eq hspelled hfirst hname
  | assignment htarget =>
    obtain ⟨head, rest, rfl, -⟩ := htarget.exists_first
    exact htarget.start_eq (fun token htoken => hspelled token (List.mem_append_left _ htoken))
      hfirst hname

end Grammar

/-! ## Places behind a point -/

/-- If the tokens `before` end with a point, it was skipped: no statement starts with a token before
it, and on the way from there to the point there is none with which one starts. -/
def PointSkipped (record : List Event) (before : List Token) : Prop :=
  ∀ point ∈ before.getLast?, point.lexeme = "." → ∃ earlier head skipped,
    before = earlier ++ head :: skipped ∧
      .skipped head earlier.length before.length ∈ record ∧
      ∀ token ∈ head :: skipped, token.startsStatement = false

/-- A statement starts with a name, and if a point stands before that, it was skipped
(`PointSkipped`). -/
def BeginsApart (tokens : List Token) (record : List Event) (statement : Node) : Prop :=
  ∃ before first after, tokens = before ++ first :: after ∧
    first.isIdentifier = true ∧ statement.span.start = first.start ∧ PointSkipped record before

/-- A place is apart if no point stands before it that was not skipped (`PointSkipped`). -/
def Cursor.Apart (record : List Event) (cursor : Cursor) : Prop :=
  PointSkipped record cursor.behind.reverse

section

variable {record : List Event} {start middle stop : Cursor} {read : List Token}

/-- A place is `Apart` behind tokens of which `EndsApart` holds. -/
theorem Cursor.Reads.apart (h : start.Reads read stop) (hends : EndsApart read) :
    stop.Apart record := by
  obtain ⟨before, last, rfl, hlast⟩ := hends
  intro point hpoint hlexeme
  have hpoint : point = last := by simpa [h.behind, eq_comm] using hpoint
  exact absurd (hpoint ▸ hlexeme) hlast

/-- A place is `Apart` where reading goes on after a token that was skipped, if that is on the
record. -/
theorem Cursor.apart_synchronize {token : Token} (htoken : token.startsStatement = false)
    (hread : start.Reads [token] middle)
    (hrecord : .skipped token start.index middle.synchronize.index ∈ record) :
    middle.synchronize.Apart record := by
  obtain ⟨skipped, stopped, hskipped, hnone, hstopped⟩ :=
    boundaryFrom_cases middle.behind middle.ahead
  replace hskipped : middle.Reads (skipped ++ stopped.toList) middle.synchronize := hskipped
  cases stopped with
  | none =>
    rw [Option.toList_none, List.append_nil] at hskipped
    intro point hpoint hlexeme
    have hbehind : middle.synchronize.behind.reverse =
        start.behind.reverse ++ token :: skipped := by
      rw [(hread.cons hskipped).behind]
      simp
    refine ⟨start.behind.reverse, token, skipped, hbehind, ?_,
      List.forall_mem_cons.mpr ⟨htoken, hnone⟩⟩
    simpa [index] using hrecord
  | some semicolon =>
    exact hskipped.apart (.append skipped (.single (by rw [hstopped semicolon rfl]; decide)))

end

namespace Grammar

variable {lineEnd : Int → Int} {start stop : Cursor} {phrase : Phrase} {events record : List Event}

/-- A reserved word is not a point. -/
theorem lexeme_ne_of_isWord {lexeme : String} {token : Token} (h : isWord lexeme token = true)
    (hne : lexeme ≠ ".") : token.lexeme ≠ "." := by
  simp only [isWord, Bool.and_eq_true, beq_iff_eq] at h
  rwa [h.2]

/-- A place is `Apart` behind a statement that ends without an error. -/
theorem Ends.apart {after : Clause} {offset final : Int} {event : Event}
    (h : Ends lineEnd after offset start final stop event) (hevent : event.error? = none) :
    stop.Apart record := by
  cases h with
  | semicolon hlexeme hread => exact hread.apart (.single (by rw [hlexeme]; decide))
  | missing => cases hevent

/-- A statement that starts with a name at a place that is `Apart` begins apart. -/
theorem beginsApart_of_reads {tokens read : List Token} {first : Token} {statement : Node}
    (htokens : start.tokens = tokens) (hread : start.Reads (first :: read) stop)
    (hstart : start.Apart record) (hname : first.isIdentifier = true)
    (hspan : statement.span.start = first.start) : BeginsApart tokens record statement := by
  refine ⟨start.behind.reverse, first, read ++ stop.ahead, ?_, hname, hspan, hstart⟩
  rw [← htokens, Cursor.tokens, hread.ahead, List.cons_append]

/-- `EndsApart` holds of a return, with or without a value and a semicolon. -/
theorem endsApart_return {keyword : Token} {semicolon : Option Token} {tokens : List Token}
    {argument : Node} (hkeyword : isWord "return" keyword = true)
    (hargument : DerivesOptional tokens argument)
    (hsemicolon : ∀ token ∈ semicolon, token.lexeme = ";")
    (hspelled : ∀ token ∈ tokens, Spelled token) :
    EndsApart (keyword :: (tokens ++ semicolon.toList)) := by
  cases semicolon with
  | some semicolon =>
    exact .cons _ (.append _ (.single (by rw [hsemicolon semicolon rfl]; decide)))
  | none =>
    rw [Option.toList_none, List.append_nil]
    cases hargument with
    | absent => exact .single (lexeme_ne_of_isWord hkeyword (by decide))
    | expression h => exact .cons _ (h.endsApart hspelled)

/-- A `Course` without errors leads from a place that is `Apart` to one that is, and the expressions
and assignments that it reads as statements begin apart. -/
theorem Course.beginsApart {tokens : List Token} (h : Course lineEnd start phrase stop events)
    (hclean : ∀ event ∈ record, event.error? = none) (hspelled : ∀ token ∈ tokens, Spelled token)
    (hevents : ∀ event ∈ events, event ∈ record) (htokens : start.tokens = tokens)
    (hstart : start.Apart record) (hok : phrase.failure? = none) :
    stop.Apart record ∧ HoldsOfPlain (BeginsApart tokens record) phrase.trees := by
  induction h with
  | listEnd | atEnd => exact ⟨hstart, .nil⟩
  | listStep _ hfirst _ ih ihrest =>
    obtain ⟨hfirstEvents, hrestEvents⟩ := List.forall_mem_append.mp hevents
    obtain ⟨hmiddle, hnode⟩ := ih hfirstEvents htokens hstart rfl
    obtain ⟨read, hread, -⟩ := hfirst.reads
    obtain ⟨hstop, hnodes⟩ := ihrest hrestEvents (hread.keeps htokens hspelled).1 hmiddle rfl
    exact ⟨hstop, hnode.append hnodes⟩
  | closedBody hopening hread _ hclosing hlast ih =>
    obtain ⟨hinner, -⟩ := List.forall_mem_append.mp hevents
    obtain ⟨-, hnodes⟩ := ih hinner (hread.keeps htokens hspelled).1
      (hread.apart (.single (by rw [hopening]; decide))) rfl
    -- whatever is in the body, the last token read is its brace
    exact ⟨hlast.apart (.single (by rw [hclosing]; decide)), hnodes⟩
  | unclosedBody hopening hread _ _ _ ih =>
    obtain ⟨hinner, -⟩ := List.forall_mem_append.mp hevents
    exact ih hinner (hread.keeps htokens hspelled).1
      (hread.apart (.single (by rw [hopening]; decide))) rfl
  | singleBody _ _ _ ih => exact ih hevents htokens hstart rfl
  | skipped htoken hread =>
    exact ⟨Cursor.apart_synchronize htoken hread (hevents _ (by simp)), .nil⟩
  | completed _ ih =>
    obtain ⟨-, hinner⟩ := List.forall_mem_cons.mp hevents
    exact ih (List.forall_mem_append.mp hinner).1 htokens hstart rfl
  | @abandoned start failure _ _ _ =>
    -- without errors on record no statement has been given up
    have habandoned := hevents (.abandoned failure.error start.index failure.cursor.index
      failure.cursor.synchronize.index) (by simp)
    cases hclean _ habandoned
  | declaration _ _ hbinding _ hends =>
    refine ⟨hends.apart (hclean _ (hevents _ (by simp))), ?_⟩
    exact .of_statements_eq_nil rfl (hbinding.statements_eq_nil _)
  | ifStatement hkeyword hread _ ih =>
    exact ih hevents (hread.keeps htokens hspelled).1
      (hread.apart (.single (lexeme_ne_of_isWord hkeyword (by decide)))) hok
  | whileStatement _ _ htest hclosing hhead _ ih =>
    have hends := (EndsApart.single (by rw [hclosing]; decide)).append
    obtain ⟨hstop, hbody⟩ := ih hevents (hhead.keeps htokens hspelled).1
      (hhead.apart (.cons _ (.cons _ (hends _)))) rfl
    exact ⟨hstop, hbody.of_body rfl rfl (by simp [Node.children, htest.statements_eq_nil])⟩
  | forStatement _ _ hinit _ htest _ hupdate hclosing hhead _ ih =>
    have hends := (EndsApart.single (by rw [hclosing]; decide)).append
    obtain ⟨hstop, hbody⟩ := ih hevents (hhead.keeps htokens hspelled).1
      (hhead.apart (.cons _ (.cons _ (.append _ (.cons _ (.append _ (.cons _ (hends _)))))))) rfl
    refine ⟨hstop, hbody.of_body rfl rfl fun child hchild => ?_⟩
    have hchild := List.mem_of_mem_filter hchild
    simp only [List.mem_cons, List.not_mem_nil, or_false] at hchild
    rcases hchild with rfl | rfl | rfl | rfl
    · exact .inl hinit.statements_eq_nil
    · exact .inl htest.statements_eq_nil
    · exact .inl hupdate.statements_eq_nil
    · exact .inr rfl
  | function _ _ _ hparams hclosing hhead _ ih =>
    have hends := (EndsApart.single (by rw [hclosing]; decide)).append
    obtain ⟨hstop, hbody⟩ := ih hevents (hhead.keeps htokens hspelled).1
      (hhead.apart (.cons _ (.cons _ (.cons _ (hends _))))) rfl
    refine ⟨hstop, hbody.of_body rfl rfl fun child hchild => ?_⟩
    rcases List.mem_append.mp hchild with hnames | hchild
    · rcases List.mem_cons.mp hnames with rfl | hparam
      · exact .inl Node.statements_identifier
      · exact .inl (hparams.statements_eq_nil child hparam)
    · exact .inr (List.mem_singleton.mp hchild)
  | classDeclaration _ hname hhead _ _ ih =>
    obtain ⟨hinner, hread⟩ := hhead.keeps htokens hspelled
    obtain ⟨hstop, hbody⟩ := ih hevents hinner
      (hhead.apart (.cons _ (.single (lexeme_ne_of_isIdentifier (hread _ (by simp)) hname)))) rfl
    exact ⟨hstop, hbody.of_body rfl rfl (by simp [Node.children, Token.node])⟩
  | returns hkeyword hargument hsemicolon hread _ =>
    have hphrase := (hread.keeps htokens hspelled).2
    have hends := endsApart_return hkeyword hargument hsemicolon
      fun token htoken => hphrase token (by simp [htoken])
    refine ⟨hread.apart hends, .of_statements_eq_nil rfl (Node.statements_eq_nil rfl ?_)⟩
    simp [Node.children, Node.present, hargument.statements_eq_nil]
  | expression hname htree hread hends =>
    have hphrase := (hread.keeps htokens hspelled).2
    refine ⟨hends.apart (hclean _ (hevents _ (by simp))), .plain ?_ ?_⟩
    · exact beginsApart_of_reads htokens hread hstart hname (htree.start_eq hphrase rfl hname)
    · exact Node.statements_eq_nil rfl (by simp [Node.children, htree.statements_eq_nil])
  | assignment hname htree hread hends =>
    have hphrase := (hread.keeps htokens hspelled).2
    refine ⟨hends.apart (hclean _ (hevents _ (by simp))), .plain ?_ ?_⟩
    · exact beginsApart_of_reads htokens hread hstart hname (htree.start_eq hphrase rfl hname)
    · -- only the span differs from that of the tree that was read, and the statements in it do not
      have hstatements := htree.statements_eq_nil
      rw [Node.statements_eq] at hstatements ⊢
      exact hstatements
  | failed | conditionalFailed => cases hok
  | @conditional _ _ _ _ _ _ _ _ _ _ result _ _ _ htest hclosing hhead hbody _ ih ihrest =>
    cases result with
    | error failure => cases hok
    | ok alternate =>
      obtain ⟨hbodyEvents, hrestEvents⟩ := List.forall_mem_append.mp hevents
      obtain ⟨hinner, -⟩ := hhead.keeps htokens hspelled
      have hends := (EndsApart.single (by rw [hclosing]; decide)).append
      obtain ⟨hlast, hconsequent⟩ := ih hbodyEvents hinner (hhead.apart (.cons _ (hends _))) rfl
      obtain ⟨read, hread, -⟩ := hbody.reads
      obtain ⟨hstop, halternate⟩ := ihrest hrestEvents (hread.keeps hinner hspelled).1 hlast rfl
      refine ⟨hstop, .of_children rfl rfl fun child hchild => ?_⟩
      rcases List.mem_cons.mp hchild with rfl | hchild
      · simp [htest.statements_eq_nil]
      · rcases List.mem_cons.mp hchild with rfl | hchild
        · exact hconsequent.below rfl rfl
        · exact (halternate child (List.mem_of_mem_filter hchild)).2
  | noAlternate => exact ⟨hstart, .of_statements_eq_nil rfl Node.statements_absent⟩
  | otherwise hword hread _ _ ih =>
    obtain ⟨hstop, hbody⟩ := ih hevents (hread.keeps htokens hspelled).1
      (hread.apart (.single (by rw [hword]; decide))) rfl
    refine ⟨hstop, fun node hnode => ?_⟩
    rw [List.mem_singleton.mp hnode]
    exact ⟨by rintro ⟨⟩, hbody.below rfl rfl⟩
  | elseIf _ hkeyword hread _ ih =>
    exact ih hevents (hread.keeps htokens hspelled).1
      (hread.apart (.cons _ (.single (by rw [hkeyword]; decide)))) hok
  | elif hkeyword hread _ ih =>
    exact ih hevents (hread.keeps htokens hspelled).1
      (hread.apart (.single (by rw [hkeyword]; decide))) hok

end Grammar

/-! ## Documents -/

/-- The statements of a document are among the `statements` of its program. -/
theorem Reading.mem_statements {reading : Reading} {statement : Node}
    (h : statement ∈ reading.statements) : statement ∈ reading.program.statements := by
  unfold Reading.statements at h
  split at h
  · next hprogram =>
    rw [hprogram, Node.statements_eq]
    exact List.mem_append_left _ h
  · cases h

/-- In a document without syntax errors the expressions and assignments begin apart (`BeginsApart`)
that are statements in a list, at any depth. -/
theorem readDocument_beginsApart {text : List Char} {tokens : List Token}
    (h : tokenize text = .ok tokens) :
    ∃ reading, readDocument text = .ok reading ∧ (reading.errors = [] →
      ∀ statement ∈ reading.program.statements, statement.isPlain = true →
        BeginsApart tokens reading.events statement) := by
  obtain ⟨reading, hreading, hprogram, -⟩ := exists_reading h
  have hevents := (reading_eq h hreading).2
  refine ⟨reading, hreading, fun hclean => ?_⟩
  have hnone : ∀ event ∈ reading.events, event.error? = none := by
    simpa [Reading.errors, List.filterMap_eq_nil_iff] using hclean
  obtain ⟨-, hcourse⟩ := statementsOf_course text tokens
  rw [← hevents] at hcourse
  have hfirst : (Cursor.ofTokens tokens).Apart reading.events := by
    rintro point ⟨⟩
  have hplain := (hcourse.beginsApart hnone (spelled_of_tokenize h) (fun _ hevent => hevent) rfl
    hfirst rfl).2
  rw [hprogram]
  exact hplain.below rfl rfl

/-- A call of a member is read as a whole. A literal is skipped together with the point behind it:
the assignment starts with the name of the member, behind a point that was skipped. -/
theorem readDocument_beginsApart_literal :
    let text := "x.f(); 5 .y = 1;".toList
    let tokens : List Token := [⟨.identifier, "x", 0, 1⟩, ⟨.symbol, ".", 1, 2⟩,
      ⟨.identifier, "f", 2, 3⟩, ⟨.symbol, "(", 3, 4⟩, ⟨.symbol, ")", 4, 5⟩, ⟨.symbol, ";", 5, 6⟩,
      ⟨.number, "5", 7, 8⟩, ⟨.symbol, ".", 9, 10⟩, ⟨.identifier, "y", 10, 11⟩,
      ⟨.symbol, "=", 12, 13⟩, ⟨.number, "1", 14, 15⟩, ⟨.symbol, ";", 15, 16⟩]
    tokenize text = .ok tokens ∧ ∃ reading, readDocument text = .ok reading ∧
      reading.errors = [] ∧ reading.statements.map (·.span.start) = [0, 10] ∧
      (∀ statement ∈ reading.statements, statement.isPlain = true) ∧
      ∀ statement ∈ reading.program.statements, statement.isPlain = true →
        BeginsApart tokens reading.events statement := by
  intro text tokens
  have htokens : tokenize text = .ok tokens := by decide +kernel
  obtain ⟨reading, hreading, happart⟩ := readDocument_beginsApart htokens
  obtain ⟨hstatements, hevents⟩ := reading_eq htokens hreading
  have hclean : reading.errors = [] := by
    unfold Reading.errors
    rw [hevents]
    decide +kernel
  refine ⟨htokens, reading, hreading, hclean, ?_, ?_, happart hclean⟩
  · rw [hstatements]
    decide +kernel
  · rw [hstatements]
    decide +kernel

/-- A statement may start with the name of a member: of a number as its owner nothing is left. -/
theorem readDocument_member_of_number :
    let text := "5 .x = 1;".toList
    let tokens : List Token := [⟨.number, "5", 0, 1⟩, ⟨.symbol, ".", 2, 3⟩,
      ⟨.identifier, "x", 3, 4⟩, ⟨.symbol, "=", 5, 6⟩, ⟨.number, "1", 7, 8⟩, ⟨.symbol, ";", 8, 9⟩]
    tokenize text = .ok tokens ∧ ∃ reading statement before first after point,
      readDocument text = .ok reading ∧ reading.errors = [] ∧
      statement ∈ reading.program.statements ∧ statement.isPlain = true ∧
      tokens = before ++ first :: after ∧ statement.span.start = first.start ∧
      point ∈ before.getLast? ∧ point.lexeme = "." := by
  intro text tokens
  have htokens : tokenize text = .ok tokens := by decide +kernel
  obtain ⟨reading, hreading, -⟩ := exists_reading htokens
  obtain ⟨hstatements, hevents⟩ := reading_eq htokens hreading
  have hstatements : reading.statements = [.assignment (.between 3 9) "="
      (.identifier (.between 3 4) "x") (.literal (.between 7 8) (.ofNumeral "1") "1" "number")] :=
    hstatements
  refine ⟨htokens, reading, _, [⟨.number, "5", 0, 1⟩, ⟨.symbol, ".", 2, 3⟩],
    ⟨.identifier, "x", 3, 4⟩, _, ⟨.symbol, ".", 2, 3⟩, hreading, ?_,
    Reading.mem_statements (hstatements ▸ List.mem_singleton_self _), rfl, rfl, rfl, rfl, rfl⟩
  unfold Reading.errors
  rw [hevents]
  decide +kernel

end NeutronLang
