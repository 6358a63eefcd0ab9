import NeutronLang.Proofs.Completeness
import NeutronLang.Proofs.Progress
import NeutronLang.Proofs.Rendering

/-!
# The trees of documents

Every statement that is read from a document is one that can be written down, whether the document
has syntax errors or not: what recovery leaves out is left out whole. The trees of expressions are
those of phrases, by induction on their derivations; the trees of statements follow by induction on
the course that their reading takes.

All that the lexer contributes is how words are spelled (`IsWord`).
-/

namespace NeutronLang.Rendering

open Grammar Lexicon

/-! ## Words -/

/-- A name, a numeral or a string is spelled as the `kind` of the token says. -/
structure IsWord (token : Token) : Prop where
  name : token.kind = .identifier → IsName token.lexeme
  numeral : token.kind = .number → IsNumeral token.lexeme
  quoted : token.kind = .string → IsQuoted token.lexeme

/-- `IsWord` holds of what the lexer takes for a name, a numeral or a string. -/
theorem isWord_of_scans {token : Token} {body rest : List Char}
    (h : Scans (some token.kind) body rest) (hlexeme : token.lexeme = carriedText body) :
    IsWord token := by
  rw [← lexeme_eq_carriedText h] at hlexeme
  obtain ⟨kind, lexeme, start, stop⟩ := token
  obtain rfl : lexeme = Lexer.lexeme kind body := hlexeme
  refine ⟨?_, ?_, ?_⟩
  · rintro rfl
    cases h with
    | identifier hstart htail _ hword =>
      exact ⟨hword, _, _, String.toList_ofList, hstart, htail⟩
  · rintro rfl
    cases h with
    | number hdigit htail _ => exact ⟨_, _, String.toList_ofList, hdigit, htail⟩
  · rintro rfl
    cases h with
    | string hquote hbody => exact ⟨_, _, hquote, hbody, String.toList_ofList⟩

/-- `IsWord` holds of the tokens of a text. -/
theorem isWord_of_tokenize {text : List Char} {tokens : List Token}
    (h : tokenize text = .ok tokens) : ∀ token ∈ tokens, IsWord token :=
  forall_of_tokenize h fun _ _ _ => isWord_of_scans

/-- `IsName` holds of the text of an identifier. -/
theorem IsWord.isName {token : Token} (h : IsWord token) (hname : token.isIdentifier = true) :
    IsName token.lexeme :=
  h.name (beq_iff_eq.mp hname)

/-! ## Expressions -/

/-- `IsExpression` holds of a literal. -/
theorem isExpression_of_literal? {token : Token} {node : Node} (hword : IsWord token)
    (h : literal? token = some node) : IsExpression node := by
  unfold literal? at h
  split at h
  · next hkind =>
    cases h
    exact .number (hword.numeral hkind)
  · next hkind =>
    cases h
    exact .string (hword.quoted hkind)
  · split at h
    · next hlexeme =>
      cases h
      rw [hlexeme]
      exact .true
    · next hlexeme =>
      cases h
      rw [hlexeme]
      exact .false
    · next hlexeme =>
      cases h
      rw [hlexeme]
      exact .nil
    · cases h
  · cases h

/-- `IsExpression` holds of the tree of a phrase. A phrase that calls and members can follow is a
name, a call or a member. -/
theorem isExpression_of_derives {level : Nat} {tokens : List Token} {tree : Node}
    (h : Derives level tokens tree) (hwords : ∀ token ∈ tokens, IsWord token) :
    IsExpression tree ∧ (level = pathLevel → Rendering.level tree = pathLevel) := by
  induction h with
  | loosen _ hlevel _ ih => exact ⟨(ih hwords).1, fun heq => absurd heq (Nat.ne_of_lt hlevel)⟩
  | @binary _ operator _ _ _ _ hprecedence _ _ ihleft ihright =>
    have hleft := ihleft fun token htoken => hwords token (List.mem_append_left _ htoken)
    have hright := ihright fun token htoken =>
      hwords token (List.mem_append_right _ (List.mem_cons_of_mem _ htoken))
    have hlevel := (precedence_bounds hprecedence).2
    refine ⟨?_, fun heq => absurd (heq ▸ hlevel) (by decide)⟩
    unfold operation
    split
    · next hlogical => exact .logical (List.contains_iff_mem.mp hlogical) hleft.1 hright.1
    · next hlogical =>
      rw [List.contains_iff_mem] at hlogical
      exact .binary (by rw [hprecedence]; rfl) hlogical hleft.1 hright.1
  | unary hsign _ ih =>
    have hoperand := ih fun token htoken => hwords token (List.mem_cons_of_mem _ htoken)
    exact ⟨.unary (List.contains_iff_mem.mp hsign) hoperand.1, fun heq => nomatch heq⟩
  | literal hliteral =>
    exact ⟨isExpression_of_literal? (hwords _ List.mem_cons_self) hliteral, fun heq => nomatch heq⟩
  | parenthesised _ _ _ ih =>
    have hinner := ih fun token htoken =>
      hwords token (List.mem_cons_of_mem _ (List.mem_append_left _ htoken))
    exact ⟨hinner.1, fun heq => nomatch heq⟩
  | array _ _ _ hseparated ih =>
    refine ⟨.array ?_, fun heq => nomatch heq⟩
    rintro _ hmem
    obtain ⟨element, helement, rfl⟩ := List.mem_map.mp hmem
    refine (ih element helement fun token htoken => hwords token ?_).1
    exact List.mem_cons_of_mem _ (List.mem_append_left _
      (hseparated.mem_of_mem (List.mem_map_of_mem helement) htoken))
  | @object _ _ properties _ _ _ hkeys _ hseparated ih =>
    refine ⟨?_, fun heq => nomatch heq⟩
    have hword (parts : PropertyParts) (hparts : parts ∈ properties) (token : Token)
        (htoken : token ∈ parts.tokens) : IsWord token :=
      hwords token (List.mem_cons_of_mem _ (List.mem_append_left _
        (hseparated.mem_of_mem (List.mem_map_of_mem hparts) htoken)))
    -- the properties that are read are those of entries, whose node they make
    have hentries : properties.map (·.node) = (properties.map fun parts =>
        Entry.mk (.between parts.key.start parts.value.span.stop) parts.key.span parts.key.lexeme
          parts.value).map Entry.node := by
      rw [List.map_map]
      rfl
    rw [hentries]
    refine .object ?_ ?_
    · intro entry hentry
      obtain ⟨parts, hparts, rfl⟩ := List.mem_map.mp hentry
      exact (hword parts hparts _ List.mem_cons_self).quoted (hkeys parts hparts).1
    · intro entry hentry
      obtain ⟨parts, hparts, rfl⟩ := List.mem_map.mp hentry
      exact (ih parts hparts fun token htoken => hword parts hparts token
        (List.mem_cons_of_mem _ (List.mem_cons_of_mem _ htoken))).1
  | @name token hname =>
    refine ⟨.name ?_, fun _ => rfl⟩
    simp only [isOperandName, Bool.or_eq_true, Bool.and_eq_true, beq_iff_eq] at hname
    exact hname.imp (hwords token List.mem_cons_self).isName And.right
  | call _ _ _ _ hseparated ihcallee ih =>
    have hcallee := ihcallee fun token htoken => hwords token (List.mem_append_left _ htoken)
    refine ⟨.call (hcallee.2 rfl) hcallee.1 ?_, fun _ => rfl⟩
    rintro _ hmem
    obtain ⟨argument, hargument, rfl⟩ := List.mem_map.mp hmem
    refine (ih argument hargument fun token htoken => hwords token ?_).1
    exact List.mem_append_right _ (List.mem_cons_of_mem _ (List.mem_append_left _
      (hseparated.mem_of_mem (List.mem_map_of_mem hargument) htoken)))
  | @member dot name _ _ _ hname _ ih =>
    have howner := ih fun token htoken => hwords token (List.mem_append_left _ htoken)
    have hword : IsWord name := hwords name (List.mem_append_right _ (by simp))
    exact ⟨.member (howner.2 rfl) howner.1 (hword.isName hname), fun _ => rfl⟩

/-- `StartsWithName` holds of a phrase that starts with a name: it is written without parentheses at
its level. -/
theorem startsWithName_of_derives {level : Nat} {tokens : List Token} {tree : Node}
    (h : Derives level tokens tree) (hwords : ∀ token ∈ tokens, IsWord token)
    (hfirst : ∀ token ∈ tokens.head?, token.isIdentifier = true) :
    level ≤ Rendering.level tree ∧ StartsWithName (places tree) := by
  -- A phrase that starts with a sign or a bracket does not start with a name.
  have hsymbol {token : Token} {lexeme : String} (hopening : isSymbol lexeme token = true)
      (hname : token.isIdentifier = true) : False := by
    simp only [isSymbol, Token.isIdentifier, Bool.and_eq_true, beq_iff_eq] at hopening hname
    rw [hname] at hopening
    cases hopening.1
  induction h with
  | loosen _ _ _ ih =>
    obtain ⟨hlevel, hstarts⟩ := ih hwords hfirst
    exact ⟨Nat.le_of_succ_le hlevel, hstarts⟩
  | @binary level operator leftTokens _ left right hprecedence hleft _ ih _ =>
    obtain ⟨first, rest, rfl, -⟩ := hleft.exists_first
    obtain ⟨hlevel, name, places, hplaces⟩ :=
      ih (fun token htoken => hwords token (List.mem_append_left _ htoken)) hfirst
    have hplain : operandPlaces level left (Rendering.places left) = Rendering.places left :=
      if_neg (Nat.not_lt.mpr hlevel)
    unfold operation
    split
    · refine ⟨by simp [Rendering.level, hprecedence], name, ?_⟩
      rw [Rendering.places, hprecedence, Option.getD_some, hplain, hplaces]
      exact ⟨_, rfl⟩
    · refine ⟨by simp [Rendering.level, hprecedence], name, ?_⟩
      rw [Rendering.places, hprecedence, Option.getD_some, hplain, hplaces]
      exact ⟨_, rfl⟩
  | @unary sign _ _ hsign _ _ =>
    have hname : IsName sign.lexeme := (hwords sign List.mem_cons_self).isName (hfirst sign rfl)
    have hsigns : ∀ lexeme ∈ prefixOperators, lexeme ∈ keywords ∨
        lexeme.toList.head?.any isWordStart = false := by decide
    obtain ⟨hnot, c, tail, hlist, hstart, -⟩ := hname
    rcases hsigns _ (List.contains_iff_mem.mp hsign) with hword | hsign
    · exact absurd hword hnot
    · simp [hlist, hstart] at hsign
  | @literal token _ hliteral =>
    have hname : token.kind = .identifier := beq_iff_eq.mp (hfirst token rfl)
    rcases of_literal? hliteral with hkind | hkind | ⟨hkind, -⟩ <;>
      rw [hname] at hkind <;> cases hkind
  | parenthesised hopening | array hopening | object hopening =>
    exact (hsymbol hopening (hfirst _ rfl)).elim
  | @name token _ =>
    have hname := (hwords token List.mem_cons_self).isName (hfirst token rfl)
    have hthis : token.lexeme ≠ "this" := fun h => hname.1 (by rw [h]; decide)
    refine ⟨Nat.le_refl _, token.lexeme, [], ?_⟩
    rw [Token.node, Rendering.places, namePlace, if_neg hthis]
  | call _ _ hcallee _ _ ih _ =>
    obtain ⟨first, rest, rfl, -⟩ := hcallee.exists_first
    obtain ⟨-, name, places, hplaces⟩ :=
      ih (fun token htoken => hwords token (List.mem_append_left _ htoken)) hfirst
    refine ⟨Nat.le_refl _, name, ?_⟩
    rw [Rendering.places, hplaces]
    exact ⟨_, rfl⟩
  | member _ _ howner ih =>
    obtain ⟨first, rest, rfl, -⟩ := howner.exists_first
    obtain ⟨-, name, places, hplaces⟩ :=
      ih (fun token htoken => hwords token (List.mem_append_left _ htoken)) hfirst
    refine ⟨Nat.le_refl _, name, ?_⟩
    rw [Rendering.places, hplaces]
    exact ⟨_, rfl⟩

/-! ## Parts of statements -/

section

variable {tokens : List Token} {tree : Node}

/-- `IsExpression` holds of an expression that may be left out, unless it is. -/
theorem isExpression_of_derivesOptional (h : DerivesOptional tokens tree)
    (hwords : ∀ token ∈ tokens, IsWord token) : tree = .absent ∨ IsExpression tree := by
  cases h with
  | absent => exact .inl rfl
  | expression h => exact .inr (isExpression_of_derives h hwords).1

/-- `IsExpression` or `IsAssignment` holds of what can stand where an assignment can. -/
theorem isAssignable_of_derives (h : DerivesAssignable tokens tree)
    (hwords : ∀ token ∈ tokens, IsWord token) : IsExpression tree ∨ IsAssignment tree := by
  cases h with
  | expression h => exact .inl (isExpression_of_derives h hwords).1
  | assignment htarget _ hvalue =>
    have hname := (isExpression_of_derives htarget fun token htoken =>
      hwords token (List.mem_append_left _ htoken)).1
    have hvalue := (isExpression_of_derives hvalue fun token htoken =>
      hwords token (List.mem_append_right _ (List.mem_cons_of_mem _ htoken))).1
    cases hname with
    | name hname => exact .inr (.mk hname hvalue)

/-- `IsDeclaration` holds of a declaration, wherever it ends. -/
theorem isDeclaration_of_derives {keyword : Token} {found : Binding}
    (h : DerivesBinding keyword tokens found) (hwords : ∀ token ∈ tokens, IsWord token)
    (stop : Int) : IsDeclaration (found.node stop) := by
  cases h with
  | @mk type name tokens init htype hname hinit =>
    have hword : IsWord name := hwords name (by simp)
    refine .mk ?_ (hword.isName hname) ?_
    · intro typeName htypeName
      obtain ⟨token, htoken, rfl⟩ := Option.map_eq_some_iff.mp htypeName
      exact List.contains_iff_mem.mp (Bool.and_eq_true_iff.mp (htype token htoken)).2
    · cases hinit with
      | absent => exact .inl rfl
      | value _ hvalue =>
        exact .inr
          (isExpression_of_derives hvalue fun token htoken => hwords token (by simp [htoken])).1

/-- The first clause of a loop is left out, a declaration, an expression or an assignment. -/
theorem isLoopInit_of_derives (h : DerivesLoopInit tokens tree)
    (hwords : ∀ token ∈ tokens, IsWord token) :
    tree = .absent ∨ IsDeclaration tree ∨ IsExpression tree ∨ IsAssignment tree := by
  cases h with
  | absent => exact .inl rfl
  | binding _ h =>
    exact .inr (.inl (isDeclaration_of_derives h
      (fun token htoken => hwords token (List.mem_cons_of_mem _ htoken)) _))
  | assignable h => exact .inr (.inr (isAssignable_of_derives h hwords))

/-- The last clause of a loop is left out, an expression or an assignment. -/
theorem isLoopUpdate_of_derives (h : DerivesLoopUpdate tokens tree)
    (hwords : ∀ token ∈ tokens, IsWord token) :
    tree = .absent ∨ IsExpression tree ∨ IsAssignment tree := by
  cases h with
  | absent => exact .inl rfl
  | assignable h => exact .inr (isAssignable_of_derives h hwords)

/-- `IsName` holds of parameters. -/
theorem isParams_of_derives {params : List Node} (h : DerivesParameters tokens params)
    (hwords : ∀ token ∈ tokens, IsWord token) :
    ∃ names : List (Span × String), (∀ param ∈ names, IsName param.2) ∧
      params = names.map fun param => .identifier param.1 param.2 := by
  cases h with
  | @mk names hsublist hnames =>
    refine ⟨names.map fun name => (name.span, name.lexeme), ?_, ?_⟩
    · intro param hparam
      obtain ⟨name, hname, rfl⟩ := List.mem_map.mp hparam
      exact (hwords name (hsublist.subset hname)).isName (hnames name hname)
    · rw [List.map_map]
      rfl

end

/-! ## Statements -/

/-- What is read of each `Phrase`: statements, and for what follows the body of a conditional
nothing, a block of statements or another conditional. -/
def IsRead : Phrase → Prop
  | .statement answer => ∀ node ∈ answer, IsStatement node
  | .list _ nodes => ∀ node ∈ nodes, IsStatement node
  | .body body => ∀ node ∈ body.statements, IsStatement node
  | .attempt result => ∀ node, result = .ok node → IsStatement node
  | .conditional _ result => ∀ node, result = .ok node →
    IsStatement node ∧ ∃ span test consequent alternate,
      node = .ifStatement span test consequent alternate
  | .alternate result => ∀ node, result = .ok node → node = .absent ∨
    (∃ span body, node = .block span body ∧ ∀ statement ∈ body, IsStatement statement) ∨
    IsStatement node ∧ ∃ span test consequent alternate,
      node = .ifStatement span test consequent alternate

/-- `IsStatement` holds of a conditional, whatever follows its body. -/
theorem isStatement_conditionalNode {keyword : Token} {test alternate : Node} {consequent : Body}
    (htest : IsExpression test) (hbody : ∀ node ∈ consequent.statements, IsStatement node)
    (halternate : IsRead (.alternate (.ok alternate))) :
    IsStatement (conditionalNode keyword test consequent alternate) := by
  rcases halternate alternate rfl with rfl | ⟨span, body, rfl, hother⟩ |
    ⟨hnext, span, nextTest, nextConsequent, nextAlternate, rfl⟩
  · exact .conditional htest hbody
  · exact .conditionalElse htest hbody hother
  · exact .conditionalChain htest hbody hnext

/-- `IsStatement` holds of an assignment of which the first token is a name, wherever it ends. -/
theorem isStatement_assignment {first : Token} {tokens : List Token} {span : Span}
    {operator : String} {target value : Node} (hfirst : first.isIdentifier = true)
    (h : DerivesAssignable (first :: tokens) (.assignment span operator target value))
    (hwords : ∀ token ∈ first :: tokens, IsWord token) (stop : Int) :
    IsStatement (.assignment (.between span.start stop) operator target value) := by
  have hassignment := isAssignable_of_derives h hwords
  generalize htokens : first :: tokens = phrase at h hwords
  cases h with
  | expression h => nomatch (isExpression_of_derives h hwords).1
  | assignment htarget _ _ =>
    -- the target is not empty, so its first token is that of the assignment
    obtain ⟨token, rest, rfl, -⟩ := htarget.exists_first
    obtain ⟨rfl, -⟩ := List.cons.inj htokens
    obtain ⟨-, name, places, hplaces⟩ := startsWithName_of_derives htarget
      (fun token htoken => hwords token (List.mem_append_left _ htoken))
      (by rintro _ ⟨rfl⟩; exact hfirst)
    rcases hassignment with himpossible | ⟨hname, hvalue⟩
    · nomatch himpossible
    · refine .assignment (.mk hname hvalue) ⟨name, ?_⟩
      rw [Rendering.places, hplaces]
      exact ⟨_, rfl⟩

/-- `IsRead` holds of what a `Course` reads, if its tokens are words. -/
theorem isRead_of_course {lineEnd : Int → Int} {start stop : Cursor} {phrase : Phrase}
    {events : List Event} (h : Course lineEnd start phrase stop events)
    (hwords : ∀ token ∈ start.tokens, IsWord token) : IsRead phrase := by
  induction h with
  | listEnd => simp [IsRead]
  | listStep _ hstatement _ ih ihrest =>
    obtain ⟨read, hread, -⟩ := hstatement.reads
    intro node hnode
    rcases List.mem_append.mp hnode with hnode | hnode
    · -- a statement of the list is the first one or one of the rest, which has the same tokens
      -- around it
      exact ih hwords node (Option.mem_toList.mp hnode)
    · exact ihrest (hread.forall_tokens hwords).1 node hnode
  | closedBody _ hopening _ _ _ ih | unclosedBody _ hopening _ _ _ ih =>
    exact ih (hopening.forall_tokens hwords).1
  | singleBody _ _ _ ih => exact fun node hnode => ih hwords node (Option.mem_toList.mp hnode)
  | atEnd | skipped | abandoned => simp [IsRead]
  | completed _ ih =>
    rintro _ ⟨rfl⟩
    exact ih hwords _ rfl
  | declaration _ hkeyword hbinding hread _ =>
    rintro _ ⟨rfl⟩
    exact .declaration (isDeclaration_of_derives hbinding
      (hread.forall_tokens (hkeyword.forall_tokens hwords).1).2 _)
  | ifStatement _ hkeyword _ ih =>
    exact fun node hnode => (ih (hkeyword.forall_tokens hwords).1 node hnode).1
  | whileStatement _ _ htest _ hhead _ ih =>
    rintro _ ⟨rfl⟩
    obtain ⟨hinner, hread⟩ := hhead.forall_tokens hwords
    exact .loop (isExpression_of_derives htest fun token htoken => hread token (by simp [htoken])).1
      (ih hinner)
  | forStatement _ _ hinit _ htest _ hupdate _ hhead _ ih =>
    rintro _ ⟨rfl⟩
    obtain ⟨hinner, hread⟩ := hhead.forall_tokens hwords
    exact .forLoop
      (isLoopInit_of_derives hinit fun token htoken => hread token (by simp [htoken]))
      (isExpression_of_derivesOptional htest fun token htoken => hread token (by simp [htoken]))
      (isLoopUpdate_of_derives hupdate fun token htoken => hread token (by simp [htoken]))
      (ih hinner)
  | function _ hname _ hparams _ hhead _ ih =>
    rintro _ ⟨rfl⟩
    obtain ⟨hinner, hread⟩ := hhead.forall_tokens hwords
    obtain ⟨names, hnames, rfl⟩ :=
      isParams_of_derives hparams fun token htoken => hread token (by simp [htoken])
    exact .function ((hread _ (by simp)).isName hname) hnames (ih hinner)
  | classDeclaration _ hname hhead _ _ ih =>
    rintro _ ⟨rfl⟩
    obtain ⟨hinner, hread⟩ := hhead.forall_tokens hwords
    exact .declaredClass ((hread _ (by simp)).isName hname) (ih hinner)
  | returns _ hargument _ hread _ =>
    rintro _ ⟨rfl⟩
    exact .returns (isExpression_of_derivesOptional hargument fun token htoken =>
      (hread.forall_tokens hwords).2 token (by simp [htoken]))
  | expression hfirst htree hread _ =>
    rintro _ ⟨rfl⟩
    have hphrase := (hread.forall_tokens hwords).2
    refine .expression (isExpression_of_derives htree hphrase).1 ?_
    refine (startsWithName_of_derives htree hphrase ?_).2
    rintro _ ⟨rfl⟩
    exact hfirst
  | assignment hfirst htree hread _ =>
    rintro _ ⟨rfl⟩
    exact isStatement_assignment hfirst htree (hread.forall_tokens hwords).2 _
  | failed | conditionalFailed => simp [IsRead]
  | @conditional _ _ _ _ _ _ _ _ _ _ result _ _ _ htest _ hhead hbody _ ih ihrest =>
    obtain ⟨hinner, hread⟩ := hhead.forall_tokens hwords
    obtain ⟨body, hbodyRead, -⟩ := hbody.reads
    have halternate := ihrest (hbodyRead.forall_tokens hinner).1
    cases result with
    | error failure => simp [IsRead, Except.map]
    | ok alternate =>
      rintro _ ⟨rfl⟩
      refine ⟨isStatement_conditionalNode ?_ (ih hinner) halternate, _, _, _, _, rfl⟩
      exact (isExpression_of_derives htest fun token htoken => hread token (by simp [htoken])).1
  | noAlternate =>
    rintro _ ⟨rfl⟩
    exact .inl rfl
  | otherwise _ hword _ _ ih =>
    rintro _ ⟨rfl⟩
    exact .inr (.inl ⟨_, _, rfl, ih (hword.forall_tokens hwords).1⟩)
  | elseIf _ _ hword _ ih | elif _ hword _ ih =>
    exact fun node hnode => .inr (.inr (ih (hword.forall_tokens hwords).1 node hnode))

/-- `readDocument` takes a `Course` over the tokens of its text. -/
theorem exists_course {text : List Char} {reading : Reading}
    (h : readDocument text = .ok reading) :
    ∃ tokens, tokenize text = .ok tokens ∧ Course (Text.lineEnd text) (Cursor.ofTokens tokens)
      (.list none reading.statements) ⟨tokens.reverse, []⟩ reading.events := by
  have htokens : ∃ tokens, tokenize text = .ok tokens := by
    unfold readDocument at h
    split at h
    · next hblank => exact ⟨[], tokenize_of_isBlankText hblank⟩
    · cases htokenize : tokenize text with
      | ok tokens => exact ⟨tokens, rfl⟩
      | error fault =>
        rw [htokenize] at h
        cases h
  obtain ⟨tokens, htokens⟩ := htokens
  obtain ⟨hstatements, hevents⟩ := reading_eq htokens h
  refine ⟨tokens, htokens, ?_⟩
  rw [hstatements, hevents]
  exact (statementsOf_course text tokens).2

/-- `IsStatement` holds of the statements of a document, whatever errors it has: they can be written
down. -/
theorem isStatement_of_readDocument {text : List Char} {reading : Reading}
    (h : readDocument text = .ok reading) :
    ∀ statement ∈ reading.statements, IsStatement statement := by
  obtain ⟨tokens, htokens, hcourse⟩ := exists_course h
  refine isRead_of_course hcourse ?_
  unfold Cursor.tokens Cursor.ofTokens
  exact isWord_of_tokenize htokens

end NeutronLang.Rendering
