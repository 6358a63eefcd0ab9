import NeutronLang.Proofs.ErrorOrder

/-!
# Where a semicolon is missing

A statement without its semicolon is reported from where its last tree ends, and parentheses stand
in the tokens and not in the tree. So the report starts behind the last token of the statement,
unless that token closes an expression in parentheses: then it starts behind the last token of what
stands in these. `DerivesTo` is the grammar of expressions again, with the token that the tree ends
with and the parentheses that close behind it, and a statement ends like the last expression in it
(`EndsTo`).
-/

namespace NeutronLang

open Lexicon Rendering

namespace Grammar

variable {level : Nat} {first last : Int} {tokens closers : List Token} {tree : Node}
  {final : Token}

/-! ## The ends of expressions -/

/-- The phrases of the grammar as in `Derives`, each with the last token that counts for its tree,
and with the parentheses that close behind that token, from the inside out. -/
inductive DerivesTo : Nat → List Token → Node → Token → List Token → Prop where
  | loosen {level : Nat} {tokens : List Token} {tree : Node} {final : Token}
      {closers : List Token} : 1 ≤ level → level < pathLevel →
      DerivesTo (level + 1) tokens tree final closers → DerivesTo level tokens tree final closers
  | binary {level : Nat} {operator : Token} {leftTokens rightTokens : List Token}
      {left right : Node} {final : Token} {closers : List Token} :
      precedence? operator.lexeme = some level → Derives level leftTokens left →
      DerivesTo (level + 1) rightTokens right final closers →
      DerivesTo level (leftTokens ++ operator :: rightTokens)
        (operation operator.lexeme left right) final closers
  | unary {sign : Token} {tokens : List Token} {tree : Node} {final : Token}
      {closers : List Token} : prefixOperators.contains sign.lexeme = true →
      DerivesTo prefixLevel tokens tree final closers →
      DerivesTo prefixLevel (sign :: tokens)
        (.unary (.between sign.start tree.span.stop) sign.lexeme tree) final closers
  | parenthesised {opening closing : Token} {tokens : List Token} {tree : Node} {final : Token}
      {closers : List Token} : isSymbol "(" opening = true → closing.lexeme = ")" →
      DerivesTo 1 tokens tree final closers →
      DerivesTo operandLevel (opening :: (tokens ++ [closing])) tree final (closers ++ [closing])
  /-- Any other operand is a literal, a list or an object. -/
  | operand {tokens : List Token} {tree : Node} {final : Token} :
      Derives operandLevel tokens tree → tokens.getLast? = some final → final.lexeme ≠ ")" →
      DerivesTo operandLevel tokens tree final []
  /-- The parenthesis that closes the arguments of a call is part of its tree. -/
  | path {tokens : List Token} {tree : Node} {final : Token} :
      Derives pathLevel tokens tree → tokens.getLast? = some final →
      DerivesTo pathLevel tokens tree final []

/-- `DerivesTo` has the phrases that `Derives` has. -/
theorem DerivesTo.derives (h : DerivesTo level tokens tree final closers) :
    Derives level tokens tree := by
  induction h with
  | loosen hpos hlevel _ ih => exact .loosen hpos hlevel ih
  | binary hprecedence hleft _ ih => exact .binary hprecedence hleft ih
  | unary hsign _ ih => exact .unary hsign ih
  | parenthesised hopening hclosing _ ih => exact .parenthesised hopening hclosing ih
  | operand h _ _ | path h _ => exact h

/-- The tokens of a phrase end with those of its end, and the latter close parentheses. -/
theorem DerivesTo.exists_before (h : DerivesTo level tokens tree final closers) :
    (∃ before, tokens = before ++ final :: closers) ∧
      ∀ closing ∈ closers, closing.lexeme = ")" := by
  induction h with
  | loosen _ _ _ ih => exact ih
  | @binary _ operator leftTokens _ _ _ _ _ _ _ _ ih =>
    obtain ⟨⟨before, rfl⟩, hclosers⟩ := ih
    exact ⟨⟨leftTokens ++ operator :: before, by simp⟩, hclosers⟩
  | @unary sign _ _ _ _ _ _ ih =>
    obtain ⟨⟨before, rfl⟩, hclosers⟩ := ih
    exact ⟨⟨sign :: before, rfl⟩, hclosers⟩
  | @parenthesised opening closing _ _ _ _ _ hclosing _ ih =>
    obtain ⟨⟨before, rfl⟩, hclosers⟩ := ih
    refine ⟨⟨opening :: before, by simp⟩, List.forall_mem_append.mpr ⟨hclosers, ?_⟩⟩
    simpa using hclosing
  | operand _ hfinal _ | path _ hfinal =>
    obtain ⟨before, rfl⟩ := List.getLast?_eq_some_iff.mp hfinal
    exact ⟨⟨before, rfl⟩, by simp⟩

/-- The tree of a phrase ends with the second of the offsets that its span is made of. -/
theorem Derives.stop_eq {start stop : Int} (h : Derives level tokens tree)
    (hlaid : Laid first tokens last) (hspan : tree.span = .between start stop) :
    tree.span.stop = stop := by
  have hlt := (h.lie hlaid).start_lt_stop h.ne_block
  rw [hspan, Span.between_start, Span.between_stop] at hlt
  rw [hspan, Span.between_stop]
  omega

/-- `DerivesTo` gives every phrase an end, and its tree ends there. -/
theorem Derives.exists_derivesTo (h : Derives level tokens tree)
    (hspelled : ∀ token ∈ tokens, Spelled token) (hlaid : Laid first tokens last) :
    ∃ final closers, DerivesTo level tokens tree final closers ∧ tree.span.stop = final.stop := by
  have hlast (opening closing : Token) (tokens : List Token) :
      (opening :: (tokens ++ [closing])).getLast? = some closing := by
    rw [← List.cons_append, List.getLast?_concat]
  induction h generalizing first last with
  | loosen hpos hlevel _ ih =>
    -- the tighter phrase ends with the same token
    obtain ⟨final, closers, h, hstop⟩ := ih hspelled hlaid
    exact ⟨final, closers, .loosen hpos hlevel h, hstop⟩
  | @binary _ operator _ _ left right hprecedence hleft hright _ ih =>
    obtain ⟨middle, -, -, -, hrightLaid⟩ := hlaid.exists_around
    obtain ⟨final, closers, h, hstop⟩ := ih (fun token htoken =>
      hspelled token (List.mem_append_right _ (List.mem_cons_of_mem _ htoken))) hrightLaid
    have htree := Derives.binary hprecedence hleft hright
    refine ⟨final, closers, .binary hprecedence hleft h, ?_⟩
    rw [htree.stop_eq hlaid (by unfold operation; split <;> rfl), hstop]
  | unary hsign hoperand ih =>
    have htree := Derives.unary hsign hoperand
    have hstop := htree.stop_eq hlaid rfl
    cases hlaid with
    | cons _ _ hrest =>
      obtain ⟨final, closers, h, hfinal⟩ := ih (fun token htoken =>
        hspelled token (List.mem_cons_of_mem _ htoken)) hrest
      exact ⟨final, closers, .unary hsign h, hstop.trans hfinal⟩
  | @literal token node hliteral =>
    have htree := Derives.literal hliteral
    have hne : token.lexeme ≠ ")" := by
      rcases of_literal? hliteral with hkind | hkind | ⟨hkind, -⟩ <;>
        exact lexeme_ne_of_spells (hspelled token List.mem_cons_self) (by rw [hkind]; decide)
    exact ⟨token, [], .operand htree rfl hne,
      htree.stop_eq hlaid (span_of_literal? hliteral)⟩
  | @parenthesised _ closing _ _ hopening hclosing _ ih =>
    cases hlaid with
    | cons _ _ hlaid =>
      obtain ⟨middle, hinner, -⟩ := hlaid.exists_around
      obtain ⟨final, closers, h, hstop⟩ := ih (fun token htoken =>
        hspelled token (List.mem_cons_of_mem _ (List.mem_append_left _ htoken))) hinner
      -- only here the tree ends before the phrase does, by one more parenthesis
      exact ⟨final, closers ++ [closing], .parenthesised hopening hclosing h, hstop⟩
  | @array opening closing _ tokens hopening hclosing helements hseparated _ =>
    have htree := Derives.array hopening hclosing helements hseparated
    exact ⟨closing, [], .operand htree (hlast opening closing tokens) (by rw [hclosing]; decide),
      htree.stop_eq hlaid rfl⟩
  | @object opening closing _ tokens hopening hclosing hkeys hvalues hseparated _ =>
    have htree := Derives.object hopening hclosing hkeys hvalues hseparated
    exact ⟨closing, [], .operand htree (hlast opening closing tokens) (by rw [hclosing]; decide),
      htree.stop_eq hlaid rfl⟩
  | @name token hname =>
    have htree := Derives.name hname
    exact ⟨token, [], .path htree rfl, htree.stop_eq hlaid rfl⟩
  | @call opening closing _ calleeTokens tokens _ hopening hclosing hcallee harguments hseparated =>
    have htree := Derives.call hopening hclosing hcallee harguments hseparated
    refine ⟨closing, [], .path htree ?_, htree.stop_eq hlaid rfl⟩
    rw [List.getLast?_append_of_ne_nil _ (List.cons_ne_nil _ _), hlast]
  | @member dot name _ ownerTokens hdot hname howner =>
    have htree := Derives.member hdot hname howner
    refine ⟨name, [], .path htree (by simp), (htree.stop_eq hlaid rfl).trans ?_⟩
    obtain ⟨-, hlt, -⟩ := hlaid.between name (by simp)
    exact Span.between_stop_of_le (Int.le_of_lt hlt)

/-! ## The ends of statements -/

/-- The statements that end with a semicolon, without it, each with the end of the last expression
in it (`DerivesTo`) or, of a declaration without a value, with its name. -/
inductive EndsTo : Clause → List Token → Token → List Token → Prop where
  | expression {tokens : List Token} {tree : Node} {final : Token} {closers : List Token} :
      DerivesTo 1 tokens tree final closers → EndsTo .statement tokens final closers
  | assignment {equals : Token} {targetTokens valueTokens : List Token} {span : Span}
      {name : String} {value : Node} {final : Token} {closers : List Token} :
      Derives 1 targetTokens (.identifier span name) → equals.lexeme = "=" →
      DerivesTo 1 valueTokens value final closers →
      EndsTo .assignment (targetTokens ++ equals :: valueTokens) final closers
  | declared {keyword name : Token} {type : Option Token} : isWord "var" keyword = true →
      (∀ token ∈ type, isTypeName token = true) → name.isIdentifier = true →
      EndsTo .variableDeclaration (keyword :: (type.toList ++ [name])) name []
  | initialised {keyword name equals : Token} {type : Option Token} {valueTokens : List Token}
      {value : Node} {final : Token} {closers : List Token} : isWord "var" keyword = true →
      (∀ token ∈ type, isTypeName token = true) → name.isIdentifier = true →
      equals.lexeme = "=" → DerivesTo 1 valueTokens value final closers →
      EndsTo .variableDeclaration (keyword :: (type.toList ++ name :: equals :: valueTokens))
        final closers

/-- The tokens of a statement end with those of its end, and the latter close parentheses. -/
theorem EndsTo.exists_before {clause : Clause} (h : EndsTo clause tokens final closers) :
    (∃ before, tokens = before ++ final :: closers) ∧
      ∀ closing ∈ closers, closing.lexeme = ")" := by
  cases h with
  | expression h => exact h.exists_before
  | @assignment equals targetTokens _ _ _ _ _ _ _ _ h =>
    obtain ⟨⟨before, rfl⟩, hclosers⟩ := h.exists_before
    exact ⟨⟨targetTokens ++ equals :: before, by simp⟩, hclosers⟩
  | @declared keyword _ type => exact ⟨⟨keyword :: type.toList, rfl⟩, by simp⟩
  | @initialised keyword name equals type _ _ _ _ _ _ _ _ h =>
    obtain ⟨⟨before, rfl⟩, hclosers⟩ := h.exists_before
    exact ⟨⟨keyword :: (type.toList ++ name :: equals :: before), by simp⟩, hclosers⟩

/-- `EndsTo` holds of an expression, which is a statement that ends with its tree. -/
theorem Derives.exists_endsTo (h : Derives 1 tokens tree)
    (hspelled : ∀ token ∈ tokens, Spelled token) (hlaid : Laid first tokens last) :
    ∃ final closers, EndsTo .statement tokens final closers ∧ tree.span.stop = final.stop := by
  obtain ⟨final, closers, h, hstop⟩ := h.exists_derivesTo hspelled hlaid
  exact ⟨final, closers, .expression h, hstop⟩

/-- `EndsTo` holds of an assignment, which ends with its value. -/
theorem DerivesAssignable.exists_endsTo {span : Span} {operator : String} {target value : Node}
    (h : DerivesAssignable tokens (.assignment span operator target value))
    (hwords : ∀ token ∈ tokens, IsWord token) (hspelled : ∀ token ∈ tokens, Spelled token)
    (hlaid : Laid first tokens last) :
    ∃ final closers, EndsTo .assignment tokens final closers ∧ span.stop = final.stop := by
  have hlt := (h.lie hlaid).start_lt_stop (by rintro _ _ ⟨⟩)
  generalize hnode : Node.assignment span operator target value = node at h
  cases h with
  | expression h =>
    subst hnode
    nomatch (isExpression_of_derives h hwords).1
  | assignment htarget hequals hvalue =>
    cases hnode
    obtain ⟨middle, -, -, -, hmore⟩ := hlaid.exists_around
    obtain ⟨final, closers, h, hstop⟩ := hvalue.exists_derivesTo (fun token htoken =>
      hspelled token (List.mem_append_right _ (List.mem_cons_of_mem _ htoken))) hmore
    refine ⟨final, closers, .assignment htarget hequals h, ?_⟩
    rw [← hstop]
    simp only [Node.span, Span.between_start, Span.between_stop] at hlt ⊢
    omega

/-- `EndsTo` holds of a declaration, which ends with its value or, without one, with its name. -/
theorem DerivesBinding.exists_endsTo {keyword : Token} {found : Binding}
    (h : DerivesBinding keyword tokens found) (hkeyword : isWord "var" keyword = true)
    (hwords : ∀ token ∈ tokens, IsWord token) (hspelled : ∀ token ∈ tokens, Spelled token)
    (hlaid : Laid first (keyword :: tokens) last) :
    ∃ final closers, EndsTo .variableDeclaration (keyword :: tokens) final closers ∧
      found.span.stop = final.stop := by
  cases hlaid with
  | cons _ hlt hlaid =>
    cases h with
    | @mk type name tokens init htype hname hinit =>
      obtain ⟨middle, htypeLaid, hle, hltName, hmore⟩ := hlaid.exists_around
      have hbefore := htypeLaid.le
      cases hinit with
      | absent =>
        refine ⟨name, [], .declared hkeyword htype hname, ?_⟩
        simp only [Binding.span, Node.isAbsent, if_true, Span.between_stop, Token.node, Node.span,
          Token.span]
        omega
      | @value equals valueTokens _ hequals hvalue =>
        cases hmore with
        | cons _ hltEquals hvalueLaid =>
          have hvalueWords : ∀ token ∈ valueTokens, IsWord token :=
            fun token htoken => hwords token (by simp [htoken])
          obtain ⟨final, closers, h, hstop⟩ := hvalue.exists_derivesTo
            (fun token htoken => hspelled token (by simp [htoken])) hvalueLaid
          -- the value has been read as an expression, so it is there
          have hpresent : init.isAbsent = false := by
            cases (isExpression_of_derives hvalue hvalueWords).1 <;> rfl
          obtain ⟨hstart, -, -⟩ := (hvalue.lie hvalueLaid).own
          have hspan := init.span.start_le_stop
          refine ⟨final, closers, .initialised hkeyword htype hname hequals h, ?_⟩
          simp only [Binding.span, hpresent, Bool.false_eq_true, if_false, Span.between_stop]
          omega

/-! ## Missing semicolons on record -/

/-- The error of a statement that has no semicolon (`EndsTo`): the tokens around the statement, its
own tokens, and where these end. -/
def LacksSemicolon (lineEnd : Int → Int) (tokens : List Token) (record : List Event)
    (error : SyntaxError) (place : Nat) : Prop :=
  ∃ before statement after clause final closers, tokens = before ++ (statement ++ after) ∧
    place = (before ++ statement).length ∧ .completed before.length place ∈ record ∧
    (∀ token ∈ after.head?, token.lexeme ≠ ";") ∧ EndsTo clause statement final closers ∧
    error = .missingSemicolon clause final.stop (lineEnd final.stop)

/-- An event is accounted for if a missing semicolon on it is that of a statement
(`LacksSemicolon`). -/
def Accounted (lineEnd : Int → Int) (tokens : List Token) (record : List Event) (event : Event) :
    Prop :=
  ∀ error ∈ event.error?, error.fault.code = "P003" →
    ∃ place, event = .unterminated error place ∧ LacksSemicolon lineEnd tokens record error place

variable {lineEnd : Int → Int} {start middle stop : Cursor} {phrase : Phrase}
  {events record : List Event}

/-- `Accounted` holds of an event that is no error. -/
theorem accounted_of_error?_eq_none {event : Event} (h : event.error? = none) :
    Accounted lineEnd tokens record event := by
  intro error herror
  rw [h] at herror
  cases herror

/-- `Accounted` holds of the end of a statement that is on record. -/
theorem Ends.accounted {clause : Clause} {offset last : Int} {statement : List Token}
    {event : Event}
    (h : Ends lineEnd clause offset middle last stop event) (hread : start.Reads statement middle)
    (htokens : start.tokens = tokens) (hends : EndsTo clause statement final closers)
    (hoffset : offset = final.stop) (hcompleted : .completed start.index stop.index ∈ record) :
    Accounted lineEnd tokens record event := by
  cases h with
  | semicolon => exact accounted_of_error?_eq_none rfl
  | missing hnext =>
    rintro _ ⟨rfl⟩ -
    have hplace : middle.index = (start.behind.reverse ++ statement).length := by
      rw [hread.index_eq, List.length_append, List.length_reverse]
      rfl
    refine ⟨middle.index, rfl, start.behind.reverse, statement, middle.ahead, clause, final,
      closers, ?_, hplace, by simpa [Cursor.index] using hcompleted, hnext, hends, by rw [hoffset]⟩
    rw [← htokens, Cursor.tokens, hread.ahead]

/-- `Accounted` holds of what a `Course` records, if the statements that it reads are on record with
it. -/
theorem Course.accounted {last : Int} (h : Course lineEnd start phrase stop events)
    (hwords : ∀ token ∈ tokens, IsWord token) (hspelled : ∀ token ∈ tokens, Spelled token)
    (hevents : ∀ event ∈ events, event ∈ record)
    (hcompleted : ∀ node, phrase = .attempt (.ok node) →
      .completed start.index stop.index ∈ record)
    (htokens : start.tokens = tokens) (hlaid : Laid start.lastStop start.ahead last) :
    ∀ event ∈ events, Accounted lineEnd tokens record event := by
  -- only an attempt has to be on record itself
  have hother {phrase : Phrase} {place : Event} (hphrase : ∀ result, phrase ≠ .attempt result) :
      ∀ node, phrase = .attempt (.ok node) → place ∈ record :=
    fun _ himpossible => absurd himpossible (hphrase _)
  have hphrase {start stop : Cursor} {read : List Token} (h : start.Reads read stop)
      (htokens : start.tokens = tokens) (hlaid : Laid start.lastStop start.ahead last) :
      (∀ token ∈ read, IsWord token) ∧ (∀ token ∈ read, Spelled token) ∧
        Laid start.lastStop read stop.lastStop :=
    ⟨(h.keeps htokens hwords).2, (h.keeps htokens hspelled).2, (h.laid hlaid).1⟩
  have hread {start stop : Cursor} {read : List Token} (h : start.Reads read stop)
      (htokens : start.tokens = tokens) (hlaid : Laid start.lastStop start.ahead last) :
      stop.tokens = tokens ∧ Laid stop.lastStop stop.ahead last :=
    ⟨(h.keeps htokens hwords).1, (h.laid hlaid).2⟩
  induction h with
  | listEnd | noAlternate | atEnd | returns | failed | conditionalFailed => simp
  | listStep _ hfirst _ ih ihrest =>
    obtain ⟨hfirstEvents, hrestEvents⟩ := List.forall_mem_append.mp hevents
    obtain ⟨read, hfirstRead, -⟩ := hfirst.reads
    obtain ⟨hmiddle, hlaidMiddle⟩ := hread hfirstRead htokens hlaid
    exact List.forall_mem_append.mpr ⟨ih hfirstEvents (hother (by simp)) htokens hlaid,
      ihrest hrestEvents (hother (by simp)) hmiddle hlaidMiddle⟩
  | closedBody _ hopening _ _ _ ih | unclosedBody _ hopening _ _ _ ih =>
    obtain ⟨hinnerEvents, -⟩ := List.forall_mem_append.mp hevents
    obtain ⟨hinner, hlaidInner⟩ := hread hopening htokens hlaid
    exact List.forall_mem_append.mpr ⟨ih hinnerEvents (hother (by simp)) hinner hlaidInner,
      by simpa using accounted_of_error?_eq_none rfl⟩
  | singleBody _ _ _ ih => exact ih hevents (hother (by simp)) htokens hlaid
  | skipped => simpa using ⟨accounted_of_error?_eq_none rfl, accounted_of_error?_eq_none rfl⟩
  | completed _ ih =>
    obtain ⟨-, hmore⟩ := List.forall_mem_cons.mp hevents
    obtain ⟨hinner, hlast⟩ := List.forall_mem_append.mp hmore
    have hcompleted := hlast _ List.mem_cons_self
    refine List.forall_mem_cons.mpr ⟨accounted_of_error?_eq_none rfl, ?_⟩
    exact List.forall_mem_append.mpr ⟨ih hinner (fun _ _ => hcompleted) htokens hlaid,
      by simpa using accounted_of_error?_eq_none rfl⟩
  | @abandoned _ failure _ hattempt ih =>
    obtain ⟨-, hmore⟩ := List.forall_mem_cons.mp hevents
    obtain ⟨hinner, -⟩ := List.forall_mem_append.mp hmore
    refine List.forall_mem_cons.mpr ⟨accounted_of_error?_eq_none rfl, ?_⟩
    refine List.forall_mem_append.mpr ⟨ih hinner (by rintro _ ⟨⟩) htokens hlaid, ?_⟩
    rw [List.forall_mem_singleton]
    rintro _ ⟨rfl⟩ hcode
    exact absurd hcode (hattempt.isDue failure rfl).code_ne
  | declaration hkeyword hfirst hbinding hrest hends =>
    obtain ⟨hallWords, hallSpelled, hrow⟩ := hphrase (hfirst.cons hrest) htokens hlaid
    obtain ⟨-, hwords⟩ := List.forall_mem_cons.mp hallWords
    obtain ⟨-, hspelled⟩ := List.forall_mem_cons.mp hallSpelled
    obtain ⟨final, closers, hendsTo, hstop⟩ :=
      hbinding.exists_endsTo hkeyword hwords hspelled hrow
    rw [List.forall_mem_singleton]
    exact hends.accounted (hfirst.cons hrest) htokens hendsTo hstop (hcompleted _ rfl)
  | expression _ htree hrest hends =>
    obtain ⟨-, hspelled, hrow⟩ := hphrase hrest htokens hlaid
    obtain ⟨final, closers, hendsTo, hstop⟩ := htree.exists_endsTo hspelled hrow
    rw [List.forall_mem_singleton]
    exact hends.accounted hrest htokens hendsTo hstop (hcompleted _ rfl)
  | assignment _ htree hrest hends =>
    obtain ⟨hwords, hspelled, hrow⟩ := hphrase hrest htokens hlaid
    obtain ⟨final, closers, hendsTo, hstop⟩ := htree.exists_endsTo hwords hspelled hrow
    rw [List.forall_mem_singleton]
    exact hends.accounted hrest htokens hendsTo hstop (hcompleted _ rfl)
  | ifStatement _ hhead _ ih | elseIf _ _ hhead _ ih | elif _ hhead _ ih
  | whileStatement _ _ _ _ hhead _ ih | forStatement _ _ _ _ _ _ _ _ hhead _ ih
  | function _ _ _ _ _ hhead _ ih | classDeclaration _ _ hhead _ _ ih
  | otherwise _ hhead _ _ ih =>
    obtain ⟨hinner, hlaidInner⟩ := hread hhead htokens hlaid
    exact ih hevents (hother (by simp)) hinner hlaidInner
  | conditional _ _ _ hhead hbody _ ih ihrest =>
    obtain ⟨hbodyEvents, hrestEvents⟩ := List.forall_mem_append.mp hevents
    obtain ⟨hinner, hlaidInner⟩ := hread hhead htokens hlaid
    obtain ⟨read, hbodyRead, -⟩ := hbody.reads
    obtain ⟨hlast, hlaidLast⟩ := hread hbodyRead hinner hlaidInner
    exact List.forall_mem_append.mpr ⟨ih hbodyEvents (hother (by simp)) hinner hlaidInner,
      ihrest hrestEvents (hother (by simp)) hlast hlaidLast⟩

end Grammar

open Grammar

/-! ## Documents -/

/-- What is reported of a statement that lacks its semicolon: the tokens of the document are those
before it, its own and those after it, and it ends with the token `final` and the parentheses that
close behind that. -/
structure Reported (text : List Char) (tokens : List Token) (reading : Reading)
    (error : SyntaxError) (before statement after : List Token) (final : Token)
    (closers : List Token) : Prop where
  tokens : tokens = before ++ (statement ++ after)
  /-- The statement is read, and behind it the semicolon is missed. -/
  completed : .completed before.length (before ++ statement).length ∈ reading.events
  missed : .unterminated error (before ++ statement).length ∈ reading.events
  next : ∀ token ∈ after.head?, token.lexeme ≠ ";"
  ends : ∃ clause, error.fault = .missingSemicolon clause ∧ EndsTo clause statement final closers
  /-- The error starts where the tree of the statement ends. -/
  start : error.span.start = final.stop
  /-- The error starts at the end of the last token exactly if no parenthesis closes there. -/
  last : ∀ token ∈ statement.getLast?, error.span.start = token.stop ↔ closers = []
  /-- The error goes on to the end of the line. -/
  within : error.span.start ≤ error.span.stop ∧ error.span.stop ≤ text.length
  line : ∀ c ∈ (text.take error.span.stop.toNat).drop error.span.start.toNat, c ≠ '\n' ∧ c ≠ '\r'
  stop : error.span.stop = text.length ∨
    ∃ c ∈ text[error.span.stop.toNat]?, c = '\n' ∨ c = '\r'

/-- The end of a token in a row is that of the last one exactly if none follows. -/
theorem Laid.stop_eq_iff {first last : Int} {before closers : List Token} {final token : Token}
    (h : Laid first (before ++ final :: closers) last)
    (htoken : token ∈ (before ++ final :: closers).getLast?) :
    final.stop = token.stop ↔ closers = [] := by
  rcases List.eq_nil_or_concat closers with rfl | ⟨closers, closing, rfl⟩
  · have heq : final = token := by simpa using htoken
    simp [heq]
  · rw [List.concat_eq_append, ← List.cons_append, ← List.append_assoc,
      List.getLast?_concat] at htoken
    obtain ⟨-, -, -, -, hafter⟩ := h.exists_around
    obtain ⟨hle, hlt, -⟩ := hafter.between closing (by simp)
    cases htoken
    simp
    omega

/-- Of each semicolon that is missing in a document the report starts where the statement before it
ends, but for the parentheses that close at its end. -/
theorem readDocument_reported {text : List Char} {tokens : List Token}
    (h : tokenize text = .ok tokens) :
    ∃ reading, readDocument text = .ok reading ∧
      ∀ error ∈ reading.errors, error.fault.code = "P003" →
        ∃ before statement after final closers,
          Reported text tokens reading error before statement after final closers := by
  obtain ⟨reading, hreading, -⟩ := exists_reading h
  have hlaid := laid_of_tokenize h
  have hevents := (reading_eq h hreading).2
  obtain ⟨-, hcourse⟩ := statementsOf_course text tokens
  rw [← hevents] at hcourse
  obtain ⟨⟨-, -, -, hplaced⟩, -⟩ := hcourse.errorsBetween hlaid
  have haccounted := hcourse.accounted (isWord_of_tokenize h) (spelled_of_tokenize h)
    (fun _ hevent => hevent) (by rintro _ ⟨⟩) rfl hlaid
  refine ⟨reading, hreading, fun error herror hcode => ?_⟩
  -- the line that the report is about and the statement before it are found by different theorems
  obtain ⟨hpos, hle, hlast, hline, hstop⟩ := (hplaced error herror).line hlaid hcode
  obtain ⟨event, hevent, hfound⟩ := List.mem_filterMap.mp herror
  obtain ⟨place, rfl, before, statement, after, clause, final, closers, rfl, rfl, hcompleted, hnext,
    hends, rfl⟩ := haccounted event hevent error hfound hcode
  refine ⟨before, statement, after, final, closers, rfl, hcompleted, hevent, hnext,
    ⟨clause, rfl, hends⟩, rfl, fun token htoken => ?_, ⟨hle, hlast⟩, hline, hstop⟩
  obtain ⟨_, -, hrest⟩ := hlaid.exists_middle
  obtain ⟨_, hstatement, -⟩ := hrest.exists_middle
  obtain ⟨⟨front, rfl⟩, -⟩ := hends.exists_before
  exact hstatement.stop_eq_iff htoken

/-- A call ends with its own parenthesis. Behind a product in parentheses, of which the second
factor stands in parentheses too, two of them close. -/
theorem readDocument_reported_nested :
    let text := "f(1)\nx = -(2 * (3)) // end".toList
    let tokens : List Token := [⟨.identifier, "f", 0, 1⟩, ⟨.symbol, "(", 1, 2⟩,
      ⟨.number, "1", 2, 3⟩, ⟨.symbol, ")", 3, 4⟩, ⟨.identifier, "x", 5, 6⟩, ⟨.symbol, "=", 7, 8⟩,
      ⟨.symbol, "-", 9, 10⟩, ⟨.symbol, "(", 10, 11⟩, ⟨.number, "2", 11, 12⟩,
      ⟨.symbol, "*", 13, 14⟩, ⟨.symbol, "(", 15, 16⟩, ⟨.number, "3", 16, 17⟩,
      ⟨.symbol, ")", 17, 18⟩, ⟨.symbol, ")", 18, 19⟩]
    tokenize text = .ok tokens ∧ ∃ reading, readDocument text = .ok reading ∧
      reading.errors.map (fun error => (error.fault.code, error.span.start, error.span.stop)) =
        [("P003", 4, 4), ("P003", 17, 26)] ∧
      ∀ error ∈ reading.errors, error.fault.code = "P003" →
        ∃ before statement after final closers,
          Reported text tokens reading error before statement after final closers := by
  intro text tokens
  have htokens : tokenize text = .ok tokens := by decide +kernel
  obtain ⟨reading, hreading, hreported⟩ := readDocument_reported htokens
  refine ⟨htokens, reading, hreading, ?_, hreported⟩
  unfold Reading.errors
  rw [(reading_eq htokens hreading).2]
  decide +kernel

/-- A report may start before the last token of the statement ends. -/
theorem readDocument_reports_parenthesis :
    let text := "x = (1)".toList
    let tokens : List Token := [⟨.identifier, "x", 0, 1⟩, ⟨.symbol, "=", 2, 3⟩,
      ⟨.symbol, "(", 4, 5⟩, ⟨.number, "1", 5, 6⟩, ⟨.symbol, ")", 6, 7⟩]
    tokenize text = .ok tokens ∧ ∃ reading error place token, readDocument text = .ok reading ∧
      error ∈ reading.errors ∧ error.fault.code = "P003" ∧
      .unterminated error (place + 1) ∈ reading.events ∧ tokens[place]? = some token ∧
      error.span.start ≠ token.stop := by
  intro text tokens
  have htokens : tokenize text = .ok tokens := by decide +kernel
  obtain ⟨reading, hreading, -⟩ := exists_reading htokens
  have hevents : reading.events = [.began 0,
      .unterminated (.missingSemicolon .assignment 6 7) 5, .completed 0 5] := by
    rw [(reading_eq htokens hreading).2]
    decide +kernel
  refine ⟨htokens, reading, .missingSemicolon .assignment 6 7, 4, ⟨.symbol, ")", 6, 7⟩, hreading,
    ?_, rfl, ?_, rfl, by decide⟩
  · simp [Reading.errors, hevents, Event.error?]
  · simp [hevents]

end NeutronLang
