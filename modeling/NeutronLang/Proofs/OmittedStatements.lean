import NeutronLang.Proofs.OmittedReaders

/-!
# Statements with a semicolon left out

A semicolon that ends a declaration, an assignment or an expression, at any depth, can be left out
at the cost of one syntax error: that it is missing (`ofTokens_withoutSemicolon`). The statements
are the same, but for where they end, and so are all other errors, those of the statements around
it included.

The one place where the two readings differ is the end of the statement (`overlooks_ended`). Up to
there and from there on they go the same way, which is all that each reader of statements has to be
shown to keep. The trees are compared by the starts of their spans, since a statement that lacks its
semicolon ends earlier, and what it ends may end earlier with it.
-/

namespace NeutronLang

open Grammar

namespace Cursor

variable {place : Nat} {start stop : Cursor} {token : Token}

/-- One token is read in `without`, unless it is the one left out. -/
theorem Reads.without_token (h : start.Reads [token] stop) (haside : start.index ≠ place) :
    (start.without place).Reads [token] (stop.without place) := by
  have hstop : stop = start.advance := by
    obtain ⟨behind, rest, rfl, rfl⟩ := h.exists_eq
    rfl
  have hhead := (head?_ahead_without haside).trans h.head?_ahead
  rw [hstop, ← advance_without haside]
  generalize start.without place = start' at hhead
  obtain ⟨behind, ahead⟩ := start'
  obtain ⟨rest, hrest⟩ := List.head?_eq_some_iff.mp hhead
  obtain rfl : ahead = token :: rest := hrest
  exact ⟨rfl, rfl⟩

/-- `without` makes one place of those right before and right after the token left out. -/
theorem Reads.without_eq (h : start.Reads [token] stop) (hstart : start.index = place) :
    stop.without place = start.without place := by
  subst hstart
  have hindex := h.index_eq
  rw [List.length_singleton] at hindex
  rw [without_of_lt (by omega), without_of_le (Nat.le_refl _), h.behind, h.ahead, hindex,
    Nat.sub_self, Nat.add_sub_cancel, Nat.sub_self]
  rfl

end Cursor

/-- The tree with the starts of its spans only, by `Node.mapSpans`. -/
def Node.starts : Node → Node := mapSpans fun span => .point span.start

namespace Grammar

open Attempt

variable {α β : Type} {omission : Omission} {lineEnd : Int → Int} {start middle stop : Cursor}
  {token : Token} {read : List Token} {rule : Rule α} {after : α → Clause} {offset : α → Int}
  {answer : α → Int → Node} {x : α}

/-! ## Ends of statements -/

/-- Reads a phrase by `rule` and the semicolon that ends it. -/
def ended (lineEnd : Int → Int) (rule : Rule α) (after : α → Clause) (offset : α → Int)
    (answer : α → Int → Node) : Attempt Node := do
  let x ← rule
  let stop ← terminate lineEnd (after x) (offset x)
  return answer x stop

/-- `ended` goes on after its phrase with what ends it. -/
theorem run_ended (h : rule start = .ok (x, middle)) :
    (ended lineEnd rule after offset answer start).run =
      let outcome := terminate lineEnd (after x) (offset x) middle
      ⟨.ok (answer x outcome.value.1, outcome.value.2), outcome.events⟩ := by
  show (⟨rule start, []⟩ : Traced _) >>= ExceptT.bindCont _ = _
  rw [h]
  show (⟨_, [] ++ (_ ++ [])⟩ : Traced _) = _
  rw [List.append_nil]
  rfl

/-- `ended` fails where there is no phrase. -/
theorem run_ended_of_error {failure : Failure} (h : rule start = .error failure) :
    (ended lineEnd rule after offset answer start).run = ⟨.error failure, []⟩ := by
  show (⟨rule start, []⟩ : Traced _) >>= ExceptT.bindCont _ = _
  rw [h]
  rfl

/-- `terminate` ends a statement with the semicolon that is accepted. -/
theorem terminate_of_accept {after : Clause} {offset : Int}
    (h : start.accept (·.lexeme == ";") = (some token, stop)) :
    terminate lineEnd after offset start =
      ⟨(token.stop, stop), [.terminated after start.index]⟩ := by
  rw [terminate, Recovering.run_get_bind, Rule.acceptText, Rule.run_accept_bind, h]
  rfl

/-- `terminate` ends a statement at the offset given where no semicolon is accepted. -/
theorem terminate_of_refused {after : Clause} {offset : Int}
    (h : start.accept (·.lexeme == ";") = (none, stop)) :
    terminate lineEnd after offset start = ⟨(offset, stop),
      [.unterminated (.missingSemicolon after offset (lineEnd offset)) start.index]⟩ := by
  rw [terminate, Recovering.run_get_bind, Rule.acceptText, Rule.run_accept_bind, h]
  rfl

/-- `ended` takes the semicolon behind its phrase. -/
theorem run_ended_of_semicolon (h : rule start = .ok (x, middle)) (hlexeme : token.lexeme = ";")
    (hread : middle.Reads [token] stop) :
    (ended lineEnd rule after offset answer start).run =
      ⟨.ok (answer x token.stop, stop), [.terminated (after x) middle.index]⟩ := by
  have haccept : middle.accept (·.lexeme == ";") = (some token, stop) :=
    Cursor.accept_of_wanted (beq_iff_eq.mpr hlexeme) hread
  rw [run_ended h, terminate_of_accept haccept]

/-- `ended` records a missing semicolon where none is behind its phrase. -/
theorem run_ended_of_ne (h : rule start = .ok (x, middle))
    (hne : ∀ token ∈ middle.ahead.head?, token.lexeme ≠ ";") :
    (ended lineEnd rule after offset answer start).run =
      ⟨.ok (answer x (offset x), middle), [.unterminated
        (.missingSemicolon (after x) (offset x) (lineEnd (offset x))) middle.index]⟩ := by
  have haccept : middle.accept (·.lexeme == ";") = (none, middle) :=
    Cursor.accept_of_not_wanted fun token htoken => beq_eq_false_iff_ne.mpr (hne token htoken)
  rw [run_ended h, terminate_of_refused haccept]

/-- The next token is a semicolon, or it is none. -/
theorem exists_semicolon_or (middle : Cursor) :
    (∃ token stop, token.lexeme = ";" ∧ middle.Reads [token] stop) ∨
      ∀ token ∈ middle.ahead.head?, token.lexeme ≠ ";" := by
  rcases middle.accept_text_cases ";" with ⟨token, stop, hlexeme, hread, -⟩ | ⟨hne, -⟩
  · exact .inl ⟨token, stop, hlexeme, hread⟩
  · exact .inr hne

/-- `ended` ends after at least one token. -/
theorem endsLater_ended (h : Rule.Abuts omission rule) :
    (ended lineEnd rule after offset answer).EndsLater := by
  constructor
  · intro start
    obtain ⟨read, hread⟩ := (h.overlooks.advances start).exists_reads
    cases hrule : rule start with
    | error failure =>
      rw [hrule] at hread
      rw [run_ended_of_error hrule]
      exact ⟨read, hread⟩
    | ok outcome =>
      obtain ⟨x, middle⟩ := outcome
      rw [hrule] at hread
      rcases exists_semicolon_or middle with ⟨token, stop, hlexeme, hmore⟩ | hne
      · rw [run_ended_of_semicolon hrule hlexeme hmore]
        exact ⟨_, hread.trans hmore⟩
      · rw [run_ended_of_ne hrule hne]
        exact ⟨read, hread⟩
  · intro start clause place hmem
    cases hrule : rule start with
    | error failure =>
      rw [run_ended_of_error hrule] at hmem
      cases hmem
    | ok outcome =>
      obtain ⟨x, middle⟩ := outcome
      -- the semicolon comes behind the phrase, and that is not empty
      have hlt := h.nonempty start x middle hrule
      rcases exists_semicolon_or middle with ⟨token, stop, hlexeme, hmore⟩ | hne
      · rw [run_ended_of_semicolon hrule hlexeme hmore] at hmem
        cases List.mem_singleton.mp hmem
        exact hlt
      · rw [run_ended_of_ne hrule hne] at hmem
        cases List.mem_singleton.mp hmem

section

variable {β : Type} {view : Node → β}

/-- `ended` records the missing semicolon where its phrase is read up to the token left out. -/
theorem agrees_ended_here (h : Rule.Abuts omission rule)
    (hview : ∀ x stop stop', view (answer x stop') = view (answer x stop))
    (htokens : start.tokens = omission.tokens) (hrule : rule start = .ok (x, middle))
    (hread : start.Reads read middle) (hmiddle : middle.index = omission.place) :
    omission.Agrees view start (ended omission.lineEnd rule after offset answer start).run
      (ended omission.lineEnd rule after offset answer (start.without omission.place)).run := by
  have hlt := h.nonempty start x middle hrule
  have hkept := h.kept start x middle htokens hrule hmiddle
  have htokens' := hread.tokens_eq.trans htokens
  have hnext := (omission.next_without htokens' hmiddle).2
  rw [run_ended_of_ne hkept fun token htoken => (hnext token htoken).2,
    Cursor.index_without, hmiddle, indexWithout_self]
  rcases exists_semicolon_or middle with ⟨token, stop, hlexeme, hmore⟩ | hne
  · have hstop := index_lt_of_reads hmore
    have hfound := hmore.getElem?_eq
    rw [htokens', hmiddle] at hfound
    rw [run_ended_of_semicolon hrule hlexeme hmore, ← hmore.without_eq hmiddle, hmiddle]
    exact .kept (.ok (hview x _ _) (by omega))
      (@Omission.Records.lacking omission start stop [] [] (after x) (offset x) (by omega)
        (by omega) ⟨token, hfound, hlexeme⟩ (by simp))
  · rw [run_ended_of_ne hrule hne]
    exact .crossed ⟨by omega, Nat.le_of_eq hmiddle.symm⟩ (by simp)

/-- `ended` ends past the token left out where its phrase is read past it. -/
theorem agrees_ended_past (hrule : rule start = .ok (x, middle))
    (hmiddle : middle.index ≠ omission.place) (hcross : start.Crosses omission.place middle)
    {outcome' : Traced (Except Failure (Node × Cursor))} :
    omission.Agrees view start (ended omission.lineEnd rule after offset answer start).run
      outcome' := by
  rcases exists_semicolon_or middle with ⟨token, stop, hlexeme, hmore⟩ | hne
  · rw [run_ended_of_semicolon hrule hlexeme hmore]
    exact .crossed (hcross.reads hmore) (by simp [Ne.symm hmiddle])
  · rw [run_ended_of_ne hrule hne]
    exact .crossed hcross (by simp)

/-- `ended` ends the same way where its phrase is read elsewhere. -/
theorem agrees_ended_elsewhere
    (hview : ∀ x stop stop', view (answer x stop') = view (answer x stop))
    (hrule : rule start = .ok (x, middle))
    (hsame : rule (start.without omission.place) = .ok (x, middle.without omission.place))
    (hread : start.Reads read middle) (hmiddle : middle.index ≠ omission.place) :
    omission.Agrees view start (ended omission.lineEnd rule after offset answer start).run
      (ended omission.lineEnd rule after offset answer (start.without omission.place)).run := by
  rcases exists_semicolon_or middle with ⟨token, stop, hlexeme, hmore⟩ | hne
  · rw [run_ended_of_semicolon hrule hlexeme hmore,
      run_ended_of_semicolon hsame hlexeme (hmore.without_token hmiddle), Cursor.index_without]
    by_cases hstop : stop.index = omission.place
    · -- there is another semicolon before the one left out
      have hindex := hread.index_eq
      have hindex' := hmore.index_eq
      rw [List.length_singleton] at hindex'
      exact .crossed ⟨by omega, Nat.le_of_eq hstop.symm⟩ (by simp [Ne.symm hmiddle])
    · exact .kept (.ok (hview x _ _) hstop) (.spared (by simp [Ne.symm hmiddle]))
  · have hne' : ∀ token ∈ (middle.without omission.place).ahead.head?, token.lexeme ≠ ";" := by
      rwa [Cursor.head?_ahead_without hmiddle]
    rw [run_ended_of_ne hrule hne, run_ended_of_ne hsame hne', Cursor.index_without]
    exact .kept (.ok (hview x _ _) hmiddle) (.spared (by simp))

/-- `ended` lacks the semicolon that is left out, if it ends by that one, and is the same if it ends
by another. -/
theorem overlooks_ended (h : Rule.Abuts omission rule)
    (hview : ∀ x stop stop', view (answer x stop') = view (answer x stop)) :
    Overlooks omission (Cursor.Clear omission.place) view
      (ended omission.lineEnd rule after offset answer)
      (ended omission.lineEnd rule after offset answer) where
  endsLater := endsLater_ended h
  agrees start htokens haside hclear := by
    have hsame := h.overlooks.same start htokens hclear
    obtain ⟨read, hread⟩ := (h.overlooks.advances start).exists_reads
    cases hrule : rule start with
    | error failure =>
      rw [hrule] at hread hsame
      rw [run_ended_of_error hrule]
      rcases hsame with hcross | hsame
      · exact .crossed hcross (by rintro after ⟨⟩)
      rcases hclear.of_reads hread with hcross | hclear
      · exact .crossed hcross (by rintro after ⟨⟩)
      rw [run_ended_of_error hsame]
      exact .kept (.error hclear) .nil
    | ok outcome =>
      obtain ⟨x, middle⟩ := outcome
      rw [hrule] at hread hsame
      -- the token is the semicolon looked for here, or it is crossed by the phrase, or it stands
      -- elsewhere
      by_cases hmiddle : middle.index = omission.place
      · exact agrees_ended_here h hview htokens hrule hread hmiddle
      by_cases hcross : start.Crosses omission.place middle
      · exact agrees_ended_past hrule hmiddle hcross
      · exact agrees_ended_elsewhere hview hrule (hsame.resolve_left hcross) hread hmiddle

end

/-! ## Statements after their keyword -/

variable {bound count : Nat} {keyword : Token} {body body' : Recovering Body}

/-- What a body looks like, with the starts of its spans only (`Node.starts`). -/
def Body.starts (body : Body) : Node := body.node.starts

/-- `declaration` overlooks the omission. -/
theorem overlooks_declaration (keyword : Token) :
    Overlooks omission (Cursor.Clear omission.place) Node.starts
      (declaration omission.lineEnd keyword) (declaration omission.lineEnd keyword) :=
  overlooks_ended (abuts_binding keyword) fun found stop stop' => by
    simp only [Binding.node, Node.starts, Node.mapSpans, Span.between_start]

/-- What a semicolon after an expression or an assignment ends. -/
def clauseOf : Node → Clause
  | .assignment .. => .assignment
  | _ => .statement

/-- An expression or an assignment as a statement. -/
def statementOf : Node → Int → Node
  | .assignment span operator target value, stop =>
    .assignment (.between span.start stop) operator target value
  | expression, stop => .expressionStatement (.between expression.span.start stop) expression

/-- `expressionStatement` is `ended` by a phrase and its semicolon. -/
theorem expressionStatement_eq (lineEnd : Int → Int) :
    expressionStatement lineEnd =
      ended lineEnd expressionOrAssignment clauseOf (·.span.stop) statementOf := by
  unfold expressionStatement ended
  congr 1
  funext tree
  cases tree <;> rfl

/-- `expressionStatement` overlooks the omission. -/
theorem overlooks_expressionStatement :
    Overlooks omission (Cursor.Clear omission.place) Node.starts
      (expressionStatement omission.lineEnd) (expressionStatement omission.lineEnd) := by
  rw [expressionStatement_eq]
  refine overlooks_ended abuts_expressionOrAssignment fun tree stop stop' => ?_
  cases tree <;> rfl

/-- `functionStatement` overlooks the omission if its body does. -/
theorem overlooks_functionStatement
    (h : Recovering.Overlooks omission (Cursor.Clear omission.place) Body.starts body body')
    (keyword : Token) :
    Overlooks omission (Cursor.Clear omission.place) Node.starts
      (functionStatement count body keyword) (functionStatement count body' keyword) := by
  refine .rule (Rule.overlooks_name _) fun name => .rule (Rule.overlooks_require _ _) fun _ =>
    .rule (overlooks_parameters count) fun params => .rule (Rule.overlooks_require _ _) fun _ =>
      .bind h fun found found' hfound => .pure ?_
  unfold Body.starts Node.starts at hfound
  simp only [Node.starts, Node.mapSpans, Span.between_start, hfound]

/-- `classStatement` overlooks the omission if its body does. -/
theorem overlooks_classStatement
    (h : Recovering.Overlooks omission (Cursor.Clear omission.place) Body.starts body body')
    (keyword : Token) :
    Overlooks omission (Cursor.Clear omission.place) Node.starts (classStatement body keyword)
      (classStatement body' keyword) := by
  refine .rule (Rule.overlooks_name _) fun name => .rule overlooks_classBodyAhead fun _ =>
    .bind h fun found found' hfound => .pure ?_
  unfold Body.starts Node.starts at hfound
  simp only [Node.starts, Node.mapSpans, Span.between_start, hfound]

/-- `whileStatement` overlooks the omission if its body does. -/
theorem overlooks_whileStatement
    (h : Recovering.Overlooks omission (Cursor.Clear omission.place) Body.starts body body')
    (keyword : Token) :
    Overlooks omission (Cursor.Clear omission.place) Node.starts (whileStatement body keyword)
      (whileStatement body' keyword) := by
  refine .rule (Rule.overlooks_require _ _) fun _ => .rule overlooks_expression fun test =>
    .rule (Rule.overlooks_require _ _) fun _ => .bind h fun found found' hfound => .pure ?_
  unfold Body.starts Node.starts at hfound
  simp only [Node.starts, Node.mapSpans, Span.between_start, hfound]

/-- `forStatement` overlooks the omission if its body does. -/
theorem overlooks_forStatement
    (h : Recovering.Overlooks omission (Cursor.Clear omission.place) Body.starts body body')
    (keyword : Token) :
    Overlooks omission (Cursor.Clear omission.place) Node.starts (forStatement body keyword)
      (forStatement body' keyword) := by
  refine .rule (Rule.overlooks_require _ _) fun _ =>
    .rule (overlooks_optionalClause overlooks_loopInit _) fun init =>
      .rule (Rule.overlooks_require _ _) fun _ =>
        .rule (overlooks_optionalClause overlooks_expression _) fun test =>
          .rule (Rule.overlooks_require _ _) fun _ =>
            .rule (overlooks_optionalClause overlooks_expressionOrAssignment _) fun update =>
              .rule (Rule.overlooks_require _ _) fun _ =>
                .bind h fun found found' hfound => .pure ?_
  unfold Body.starts Node.starts at hfound
  simp only [Node.starts, Node.mapSpans, Span.between_start, hfound]

/-- `conditional` overlooks the omission if its body and what follows that do. -/
theorem overlooks_conditional {alternate alternate' : Attempt Node}
    (halternate : Overlooks omission (fun _ => True) Node.starts alternate alternate')
    (h : Recovering.Overlooks omission (Cursor.Clear omission.place) Body.starts body body')
    (keyword : Token) :
    Overlooks omission (Cursor.Clear omission.place) Node.starts
      (conditional alternate body keyword) (conditional alternate' body' keyword) := by
  refine .rule (Rule.overlooks_require _ _) fun _ => .rule overlooks_expression fun test =>
    .rule (Rule.overlooks_require _ _) fun _ => .bind h fun found found' hfound =>
      .bind halternate fun other other' hother => .pure ?_
  unfold Body.starts Node.starts at hfound
  unfold Node.starts at hother
  simp only [Node.starts, Node.mapSpans, Span.between_start, hfound, hother]

/-- `alternate` overlooks the omission if the bodies do. -/
theorem overlooks_alternate
    (h : Recovering.Overlooks omission (Cursor.Clear omission.place) Body.starts body body') :
    Overlooks omission (fun _ => True) Node.starts (alternate body count)
      (alternate body' count) := by
  induction count with
  | zero => exact .pure rfl
  | succ count ih =>
    refine .acceptText (.acceptText (.pure rfl) fun keyword => ?_) fun word => .acceptText ?_
      fun keyword => ?_
    · exact overlooks_conditional ih h keyword
    · exact .bind h fun found found' hfound => .pure hfound
    · exact overlooks_conditional ih h keyword

/-- Reads the argument of a return, if there is one. -/
def returnArgument : Rule Node := do
  if returnEnds (← get) then return .absent else expression

/-- `returnStatement` reads `returnArgument` and then a semicolon, if there is one. -/
theorem returnStatement_eq (start : Cursor) :
    returnStatement start = do
      let argument ← returnArgument
      let _ ← Rule.acceptText ";"
      return .returnStatement (start.spanTo (← get)) argument := by
  unfold returnStatement returnArgument
  rw [bind_assoc]
  refine bind_congr fun place => ?_
  split <;> rfl

/-- `returnArgument` reads the same without the token left out. -/
theorem overlooks_returnArgument : Rule.Overlooks omission returnArgument where
  advances := by
    refine Rule.advances_get.bind fun place => ?_
    split
    · exact Rule.advances_pure _
    · exact advances_expression
  same start htokens hclear := by
    have hends : returnEnds (start.without omission.place) = returnEnds start := by
      unfold returnEnds
      rw [Cursor.atEnd_without hclear.aside, Cursor.sees_without hclear.aside,
        Cursor.sees_without hclear.aside]
    have hrun (start : Cursor) : returnArgument start =
        (if returnEnds start then pure Node.absent else expression : Rule Node) start := rfl
    rw [hrun, hrun, hends]
    split
    · exact .inr rfl
    · exact overlooks_expression.same start htokens hclear

/-- `returnStatement` overlooks the omission from places where it starts at the same offset. -/
theorem overlooks_returnStatement {start start' : Cursor}
    (h : ∀ stop stop', (start'.spanTo stop').start = (start.spanTo stop).start) :
    Overlooks omission (Cursor.Clear omission.place) Node.starts (liftM (returnStatement start))
      (liftM (returnStatement start')) := by
  simp only [returnStatement_eq, liftM_bind]
  refine .rule overlooks_returnArgument fun argument => .rule (Rule.overlooks_accept _) fun _ =>
    ⟨?_, fun place _ haside _ => ?_⟩
  · exact (endsLater_rule Rule.advances_get).bind fun _ => endsLater_rule (Rule.advances_pure _)
  · refine .kept (.ok ?_ haside) .nil
    simp only [Node.starts, Node.mapSpans]
    rw [h place]

/-- `keywordStatement?` overlooks the omission if the bodies do. -/
theorem overlooks_keywordStatement?
    (hbody : Recovering.Overlooks omission (Cursor.Clear omission.place) Body.starts body body')
    {start start' : Cursor}
    (hstart : ∀ stop stop', (start'.spanTo stop').start = (start.spanTo stop).start)
    (keyword : Token) :
    Option.Rel (Overlooks omission (Cursor.Clear omission.place) Node.starts)
      (keywordStatement? omission.lineEnd bound body start keyword)
      (keywordStatement? omission.lineEnd bound body' start' keyword) := by
  unfold keywordStatement?
  split
  · split
    · exact .some (overlooks_declaration keyword)
    · exact .some (overlooks_conditional (overlooks_alternate hbody) hbody keyword)
    · exact .some (overlooks_whileStatement hbody keyword)
    · exact .some (overlooks_forStatement hbody keyword)
    · exact .some (overlooks_functionStatement hbody keyword)
    · exact .some (overlooks_classStatement hbody keyword)
    · exact .some (overlooks_returnStatement hstart)
    · exact .none
  · exact .none

/-! ## Lists of statements and bodies -/

/-- `listEnds` overlooks the omission: a list of statements ends at the same places. -/
theorem overlooks_listEnds (closing : Option String) :
    Recovering.Overlooks omission (fun _ => True) id (listEnds closing) (listEnds closing) where
  endsLater := ⟨fun start => ⟨[], .refl start⟩, by rintro start after place ⟨⟩⟩
  agrees start htokens haside _ := by
    refine .kept (.ok ?_ haside) .nil
    have hsees : (start.without omission.place).sees = start.sees :=
      funext (Cursor.sees_without haside)
    rw [Cursor.atEnd_without haside, hsees]

variable {statement statement' : Recovering (Option Node)}

/-- `statements` overlook the omission if each statement does. -/
theorem overlooks_statements
    (h : Recovering.Overlooks omission (fun _ => True) (Option.map Node.starts) statement
      statement')
    (closing : Option String) (count : Nat) :
    Recovering.Overlooks omission (fun _ => True) (List.map Node.starts)
      (statements closing statement count) (statements closing statement' count) := by
  induction count with
  | zero => exact .pure rfl
  | succ count ih =>
    refine (overlooks_listEnds closing).bind fun ends ends' hends => ?_
    obtain rfl : ends' = ends := hends
    cases ends' with
    | true => exact .pure rfl
    | false =>
      refine h.bind fun first first' hfirst => ih.bind fun more more' hmore => .pure ?_
      rw [List.map_append, List.map_append, hmore, ← Option.toList_map, ← Option.toList_map,
        hfirst]

/-- A body looks the same if its span starts at the same offset and its statements look the
same. -/
theorem Body.starts_eq {body body' : Body} (hspan : body'.span.start = body.span.start)
    (h : body'.statements.map Node.starts = body.statements.map Node.starts) :
    body'.starts = body.starts := by
  unfold Body.starts Body.node Node.starts at *
  simp only [Node.mapSpans, Node.mapSpansOfAll_eq_map, hspan, h]

/-- `body` overlooks the omission if its statements do. -/
theorem overlooks_body
    (h : Recovering.Overlooks omission (fun _ => True) (Option.map Node.starts) statement
      statement') (bound : Nat) :
    Recovering.Overlooks omission (Cursor.Clear omission.place) Body.starts
      (Grammar.body statement bound) (Grammar.body statement' bound) := by
  have hlist := overlooks_statements h (some "\x7d") bound
  refine .get (fun start => ?_) fun start htokens haside hclear => ?_
  · refine Recovering.endsLater_acceptText ?_ fun opening => ?_
    · exact h.endsLater.bind fun found => Recovering.endsLater_get fun stop =>
        Recovering.endsLater_pure _
    · exact hlist.endsLater.bind fun found => Recovering.endsLater_get fun stop =>
        Recovering.endsLater_acceptText
          (.bind (Recovering.endsLater_record (by simp)) fun _ => Recovering.endsLater_pure _)
          fun closing =>
            .bind (Recovering.endsLater_record (by simp)) fun _ => Recovering.endsLater_pure _
  · refine .acceptText ?_ fun opening => ?_
    · refine .bind (h.mono fun _ _ => trivial) fun found found' hfound =>
        .getAny fun stop => .pure (Body.starts_eq (Cursor.start_spanTo_without hclear _ _) ?_)
      -- without braces the statement is the whole body, so what is kept of it is kept of the body
      rw [← Option.toList_map, ← Option.toList_map, hfound]
    · refine .bind (hlist.mono fun _ _ => trivial) fun found found' hfound =>
        .getAny fun stop => .acceptText ?_ fun closing => ?_
      · refine .record ?_ (by simp) (.pure (Body.starts_eq rfl hfound))
        rw [Cursor.index_without]
        rfl
      · refine .record ?_ (by simp) (.pure (Body.starts_eq rfl hfound))
        rw [Cursor.index_without, Cursor.index_without]
        rfl

/-- `completed` reads nothing, and so ends nothing. -/
theorem endsLater_completed (start : Cursor) (node : Node) : (completed start node).EndsLater :=
  endsLater_get fun _ => .bind (endsLater_record (by simp)) fun _ => endsLater_pure _

/-- `completed` overlooks the omission for statements that look the same. -/
theorem overlooks_completed (start : Cursor) {node node' : Node}
    (h : node'.starts = node.starts) :
    Overlooks omission (fun _ => True) (Option.map Node.starts) (completed start node)
      (completed (start.without omission.place) node') := by
  have hrecord (place : Cursor) : Overlooks omission (fun _ => True) (Option.map Node.starts)
      (do
        liftM (record (.completed start.index place.index))
        return some node)
      (do
        liftM (record (.completed (start.without omission.place).index
          (place.without omission.place).index))
        return some node') := by
    refine .record ?_ (by simp) (.pure (congrArg some h))
    rw [Cursor.index_without, Cursor.index_without]
    rfl
  exact .get (fun place => (hrecord place).endsLater) fun place htokens haside _ =>
    (hrecord place).agrees place htokens haside trivial

/-- `skipToBoundary` overlooks the omission: a token is skipped at the places that correspond. -/
theorem overlooks_skipToBoundary (token : Token) :
    Recovering.Overlooks omission (fun _ => True) (Option.map Node.starts)
      (skipToBoundary token) (skipToBoundary token) := by
  have hreads (start : Cursor) : ∃ read more, start.Reads read start.advance ∧
      start.advance.Reads more start.advance.synchronize := by
    obtain ⟨read, hread⟩ := (Rule.advances_skip start).exists_reads
    obtain ⟨more, hmore⟩ := exists_reads_synchronize start.advance
    exact ⟨read, more, hread, hmore⟩
  constructor
  · constructor
    · intro start
      obtain ⟨read, more, hread, hmore⟩ := hreads start
      exact ⟨_, hread.trans hmore⟩
    · intro start after place hmem
      cases List.mem_singleton.mp hmem
  · intro start htokens haside _
    obtain ⟨read, more, hread, hmore⟩ := hreads start
    -- where the token is among those skipped nothing is left to compare
    by_cases hcross : start.Crosses omission.place start.advance.synchronize
    · refine .crossed hcross fun after hmem => ?_
      cases List.mem_singleton.mp hmem
    have hindex := hread.index_eq
    have hindex' := hmore.index_eq
    have hadvance : start.advance.index ≠ omission.place := fun heq =>
      hcross ⟨by omega, by omega⟩
    have hstop : start.advance.synchronize.index ≠ omission.place := fun heq =>
      hcross ⟨by omega, Nat.le_of_eq heq.symm⟩
    have hsame := (Cursor.synchronize_without hadvance).resolve_left fun h =>
      hcross (h.of_reads hread)
    show omission.Agrees _ start
      ⟨.ok (none, start.advance.synchronize),
        [.skipped token start.index start.advance.synchronize.index]⟩
      ⟨.ok (none, (start.without omission.place).advance.synchronize),
        [.skipped token (start.without omission.place).index
          (start.without omission.place).advance.synchronize.index]⟩
    rw [Cursor.advance_without haside, hsame, Cursor.index_without, Cursor.index_without]
    exact .kept (.ok rfl hstop) (.spared (by simp))

/-- Reads a statement that starts with `token`, or skips the token. -/
def attemptFrom (lineEnd : Int → Int) (bound : Nat) (body : Recovering Body) (start : Cursor)
    (token : Token) : Attempt (Option Node) := do
  record (.began start.index)
  match keywordStatement? lineEnd bound body start token with
  | some rest =>
    Rule.skip
    completed start (← rest)
  | none =>
    if token.isIdentifier then completed start (← expressionStatement lineEnd)
    else skipToBoundary token

/-- `attempt` is `attemptFrom` at the next token, if there is one. -/
theorem attempt_eq (lineEnd : Int → Int) (bound : Nat) (body : Recovering Body) :
    attempt lineEnd bound body = do
      let start ← get
      match start.next? with
      | some token => attemptFrom lineEnd bound body start token
      | none => return none := by
  unfold attempt
  refine bind_congr fun start => ?_
  cases start.next? <;> rfl

/-- `attemptFrom` ends nothing by the token that it starts at, if the bodies do not. -/
theorem endsLater_attemptFrom
    (h : Recovering.Overlooks omission (Cursor.Clear omission.place) Body.starts body body')
    (start : Cursor) (token : Token) :
    (attemptFrom omission.lineEnd bound body start token).EndsLater := by
  refine .bind (endsLater_record (by simp)) fun _ => ?_
  have hrest : Option.Rel _ (keywordStatement? omission.lineEnd bound body start token)
      (keywordStatement? omission.lineEnd bound body' start token) :=
    overlooks_keywordStatement? h start.start_spanTo token
  generalize keywordStatement? omission.lineEnd bound body start token = rest at hrest ⊢
  generalize keywordStatement? omission.lineEnd bound body' start token = rest' at hrest
  cases hrest with
  | some hrest =>
    exact (endsLater_rule Rule.advances_skip).bind fun _ => hrest.endsLater.bind fun node =>
      endsLater_completed start node
  | none =>
    dsimp only
    split
    · have hexpression : Overlooks omission _ _ (expressionStatement omission.lineEnd) _ :=
        overlooks_expressionStatement
      exact hexpression.endsLater.bind fun node => endsLater_completed start node
    · have hskip : Recovering.Overlooks omission _ _ (skipToBoundary token) _ :=
        overlooks_skipToBoundary token
      exact hskip.endsLater

/-- `attemptFrom` overlooks the omission if the bodies do. -/
theorem overlooks_attemptFrom
    (h : Recovering.Overlooks omission (Cursor.Clear omission.place) Body.starts body body')
    {start : Cursor} (hclear : start.Clear omission.place) (token : Token) :
    Overlooks omission (Cursor.Clear omission.place) (Option.map Node.starts)
      (attemptFrom omission.lineEnd bound body start token)
      (attemptFrom omission.lineEnd bound body' (start.without omission.place) token) := by
  refine .record ?_ (by simp) ?_
  · rw [Cursor.index_without]
    rfl
  have hrest : Option.Rel _ (keywordStatement? omission.lineEnd bound body start token)
      (keywordStatement? omission.lineEnd bound body' (start.without omission.place) token) :=
    overlooks_keywordStatement? h (Cursor.start_spanTo_without hclear) token
  -- a word selects a reader with the token and without it, or in neither case
  generalize keywordStatement? omission.lineEnd bound body start token = rest at hrest ⊢
  generalize keywordStatement? omission.lineEnd bound body' (start.without omission.place) token =
    rest' at hrest ⊢
  cases hrest with
  | some hrest =>
    exact .rule Rule.overlooks_skip fun _ => .bind hrest fun node node' hnode =>
      overlooks_completed start hnode
  | none =>
    dsimp only
    split
    · exact .bind overlooks_expressionStatement fun node node' hnode =>
        overlooks_completed start hnode
    · exact (overlooks_skipToBoundary token).mono fun _ _ => trivial

/-- `attempt` overlooks the omission if the bodies do. -/
theorem overlooks_attempt
    (h : Recovering.Overlooks omission (Cursor.Clear omission.place) Body.starts body body') :
    Overlooks omission (fun _ => True) (Option.map Node.starts)
      (attempt omission.lineEnd bound body) (attempt omission.lineEnd bound body') := by
  rw [attempt_eq, attempt_eq]
  refine .get (fun start => ?_) fun start htokens haside _ => ?_
  · cases start.next? with
    | none => exact endsLater_pure none
    | some token => exact endsLater_attemptFrom h start token
  · rw [Cursor.next?_without haside]
    cases hnext : start.next? with
    | none => exact .kept (.ok rfl haside) .nil
    | some token =>
      have hclear : start.Clear omission.place := ⟨haside, fun _ hahead => by
        rw [Cursor.next?, hahead] at hnext
        cases hnext⟩
      exact (overlooks_attemptFrom h hclear token).agrees start htokens haside hclear

/-- `statementWithin` overlooks the omission. -/
theorem overlooks_statementWithin (bound : Nat) :
    Recovering.Overlooks omission (fun _ => True) (Option.map Node.starts)
      (statementWithin omission.lineEnd bound) (statementWithin omission.lineEnd bound) := by
  -- a statement has bodies of a lower bound, and those have statements
  induction bound with
  | zero => exact .pure rfl
  | succ bound ih => exact (overlooks_attempt (overlooks_body ih bound)).recover

end Grammar

/-! ## Documents -/

/-- What `reading'`, of a document that lacks a semicolon, comes to beside the `reading` of all its
tokens. -/
structure LacksSemicolon (text : List Char) (after : Clause) (place : Nat)
    (reading reading' : Reading) : Prop where
  /-- The statements are the same, but for the offsets where they and their parts end. -/
  statements : reading'.statements.map Node.starts = reading.statements.map Node.starts
  /-- The syntax errors are the same, but for one more: the semicolon after `after` is missing. -/
  errors : ∃ offset before later, reading.errors = before ++ later ∧
    reading'.errors = before.map (SyntaxError.without place) ++
      .missingSemicolon after offset (Text.lineEnd text offset) ::
        later.map (SyntaxError.without place)

section

variable {text : List Char} {tokens : List Token} {after : Clause} {place : Nat}

/-- The tokens of a document start and stop in it. -/
theorem nonneg_of_tokenize (h : tokenize text = .ok tokens) :
    ∀ token ∈ tokens, 0 ≤ token.start ∧ 0 ≤ token.stop := by
  intro token htoken
  obtain ⟨hpos, hlt, -⟩ := (Lexicon.tokenize_eq_ok_iff.mp h).within token htoken
  omega

/-- A token of a document may be left out before one that goes on with no statement. -/
def Omission.ofDocument (place : Nat) (htokens : tokenize text = .ok tokens)
    (hnext : ∀ token ∈ tokens[place + 1]?,
      precedence? token.lexeme = none ∧ token.lexeme ∉ ["(", ".", "=", ";"]) : Omission where
  lineEnd := Text.lineEnd text
  tokens := tokens
  place := place
  next token htoken := by
    obtain ⟨hprecedence, hlexeme⟩ := hnext token htoken
    simp only [List.mem_cons, List.not_mem_nil, or_false, not_or] at hlexeme
    simp [continuesExpression, hprecedence, hlexeme]
  spelled := Lexicon.spelled_of_tokenize htokens
  nonneg := nonneg_of_tokenize htokens

/-- `statements` without a token are read from the place that corresponds to the first. -/
theorem statements_without (h : ∀ token ∈ tokens, 0 ≤ token.start ∧ 0 ≤ token.stop) :
    statements none (statementWithin (Text.lineEnd text) tokens.length) tokens.length
      ((Cursor.ofTokens tokens).without place) = statementsOf text (tokens.eraseIdx place) := by
  rw [Cursor.without_ofTokens]
  exact statements_of_bounds text (fun token htoken => h token (List.mem_of_mem_eraseIdx htoken))
    (List.length_eraseIdx_le ..) (List.length_eraseIdx_le ..)

/-- A document without one of the semicolons that end a statement is read like the document with it,
but that the semicolon is missing (`LacksSemicolon`), if the next token does not go on with the
statement and is no semicolon either. -/
theorem ofTokens_withoutSemicolon (htokens : tokenize text = .ok tokens)
    (hterminated : .terminated after place ∈ (Reading.ofTokens text tokens).events)
    (hnext : ∀ token ∈ tokens[place + 1]?,
      precedence? token.lexeme = none ∧ token.lexeme ∉ ["(", ".", "=", ";"]) :
    (∃ token ∈ tokens[place]?, token.lexeme = ";") ∧
      LacksSemicolon text after place (Reading.ofTokens text tokens)
        (Reading.ofTokens text (tokens.eraseIdx place)) := by
  have hlist : Recovering.Overlooks (.ofDocument place htokens hnext) _ _
      (statements none _ tokens.length) _ :=
    overlooks_statements (overlooks_statementWithin tokens.length) none tokens.length
  -- the token that the document starts with ends no statement
  have hplace : 0 < place :=
    hlist.endsLater.later (Cursor.ofTokens tokens) after place hterminated
  have hagrees := hlist.agrees (Cursor.ofTokens tokens) rfl (Nat.ne_of_lt hplace) trivial
  replace hagrees : (Omission.ofDocument place htokens hnext).Agrees (List.map Node.starts)
      (Cursor.ofTokens tokens)
      ⟨.ok (statementsOf text tokens).value, (statementsOf text tokens).events⟩
      ⟨.ok (statementsOf text (tokens.eraseIdx place)).value,
        (statementsOf text (tokens.eraseIdx place)).events⟩ := by
    rw [← statements_without (nonneg_of_tokenize htokens)]
    exact hagrees
  obtain ⟨hresults, hsemicolon, offset, before, later, hevents, hevents'⟩ :=
    hagrees.of_mem hterminated
  refine ⟨hsemicolon, hresults.view_eq, offset, before.filterMap Event.error?,
    later.filterMap Event.error?, ?_, ?_⟩
  · show (statementsOf text tokens).events.filterMap Event.error? = _
    rw [hevents, List.filterMap_append]
    rfl
  · show (statementsOf text (tokens.eraseIdx place)).events.filterMap Event.error? = _
    rw [hevents', List.filterMap_append, Event.filterMap_error?_without]
    exact congrArg (_ ++ SyntaxError.missingSemicolon after offset _ :: ·)
      (Event.filterMap_error?_without place later)

end

/-- In a body inside a conditional an assignment lacks its semicolon, before a statement that lacks
another one. -/
theorem ofTokens_withoutSemicolon_nested :
    let text := "if (a) \x7b x = 1; \x7d else y".toList
    let tokens : List Token := [⟨.keyword, "if", 0, 2⟩, ⟨.symbol, "(", 3, 4⟩,
      ⟨.identifier, "a", 4, 5⟩, ⟨.symbol, ")", 5, 6⟩, ⟨.symbol, "\x7b", 7, 8⟩,
      ⟨.identifier, "x", 9, 10⟩, ⟨.symbol, "=", 11, 12⟩, ⟨.number, "1", 13, 14⟩,
      ⟨.symbol, ";", 14, 15⟩, ⟨.symbol, "\x7d", 16, 17⟩, ⟨.keyword, "else", 18, 22⟩,
      ⟨.identifier, "y", 23, 24⟩]
    tokenize text = .ok tokens ∧
      .terminated .assignment 8 ∈ (Reading.ofTokens text tokens).events ∧
      (∀ token ∈ tokens[8 + 1]?,
        precedence? token.lexeme = none ∧ token.lexeme ∉ ["(", ".", "=", ";"]) ∧
      LacksSemicolon text .assignment 8 (Reading.ofTokens text tokens)
        (Reading.ofTokens text (tokens.eraseIdx 8)) ∧
      (Reading.ofTokens text tokens).errors = [.missingSemicolon .statement 24 24] ∧
      (Reading.ofTokens text (tokens.eraseIdx 8)).errors =
        [.missingSemicolon .assignment 14 24, .missingSemicolon .statement 24 24] := by
  intro text tokens
  have htokens : tokenize text = .ok tokens := by decide +kernel
  have hterminated : .terminated .assignment 8 ∈ (Reading.ofTokens text tokens).events := by
    decide +kernel
  have hnext : ∀ token ∈ tokens[8 + 1]?,
      precedence? token.lexeme = none ∧ token.lexeme ∉ ["(", ".", "=", ";"] := by decide +kernel
  exact ⟨htokens, hterminated, hnext,
    (ofTokens_withoutSemicolon htokens hterminated hnext).2, by decide +kernel, by decide +kernel⟩

end NeutronLang
