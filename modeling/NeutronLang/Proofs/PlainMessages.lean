import NeutronLang.Proofs.FlatChecking
import NeutronLang.Proofs.NotedMismatches
import NeutronLang.Proofs.PlainRules

/-!
# Messages are plain

What is said about a document never breaks a line. Syntax errors come from the failures of rules,
which are plain, and from missing semicolons, of which the message is fixed; so a reader records
plain errors where the tokens ahead are plain, and it leaves such tokens ahead
(`Recovering.IsPlain`, `Attempt.IsPlain`). Sequencing keeps to that, and recovery does, which only
moves forward. A type error names a variable, which is a name of the document, and types.
-/

namespace NeutronLang

open Text Grammar Rendering

/-! ## Places further ahead -/

namespace Cursor

/-- `advance` leaves plain tokens ahead. -/
theorem IsPlain.advance {cursor : Cursor} (h : cursor.IsPlain) : cursor.advance.IsPlain := by
  obtain ⟨behind, ahead⟩ := cursor
  cases ahead with
  | nil => exact h
  | cons token ahead => exact fun other hother => h other (List.mem_cons_of_mem _ hother)

/-- `synchronize` leaves plain tokens ahead. -/
theorem IsPlain.synchronize {cursor : Cursor} (h : cursor.IsPlain) :
    cursor.synchronize.IsPlain := by
  obtain ⟨read, hread⟩ := exists_reads_synchronize cursor
  exact h.of_reads hread

/-- `accept` leaves plain tokens ahead, whether it takes one or not. -/
theorem IsPlain.accept {cursor : Cursor} (h : cursor.IsPlain) (wanted : Token → Bool) :
    (cursor.accept wanted).2.IsPlain := by
  unfold Cursor.accept
  split
  · split
    · exact h.advance
    · exact h
  · exact h

/-- A token that `accept` takes for its text has that text. -/
theorem lexeme_eq_of_accept {cursor : Cursor} {lexeme : String} {token : Token}
    (h : (cursor.accept (·.lexeme == lexeme)).1 = some token) : token.lexeme = lexeme := by
  unfold Cursor.accept at h
  split at h
  · split at h
    · next hwanted =>
      cases h
      exact beq_iff_eq.mp hwanted
    · cases h
  · cases h

end Cursor

/-! ## Readers -/

/-- The errors on a record have plain messages. -/
def Traced.IsPlain {α : Type} (traced : Traced α) : Prop :=
  ∀ error ∈ traced.errors, isPlain error.fault.message = true

/-- A reader records plain errors and leaves plain tokens ahead (`Cursor.IsPlain`). -/
def Recovering.IsPlain {α : Type} (reader : Recovering α) : Prop :=
  ∀ start : Cursor, start.IsPlain → (reader start).IsPlain ∧ (reader start).value.2.IsPlain

/-- What an attempt comes to is plain: the tokens left ahead (`Cursor.IsPlain`) and, where it fails,
the failure. -/
inductive Attempt.EndsPlainly {α : Type} : Except Failure (α × Cursor) → Prop where
  | ok {x : α} {stop : Cursor} : stop.IsPlain → EndsPlainly (.ok (x, stop))
  | error {failure : Failure} : failure.IsPlain → failure.cursor.IsPlain →
      EndsPlainly (.error failure)

/-- An attempt records plain errors and `EndsPlainly`. -/
def Attempt.IsPlain {α : Type} (attempt : Attempt α) : Prop :=
  ∀ start : Cursor, start.IsPlain →
    (attempt start).run.IsPlain ∧ EndsPlainly (attempt start).run.value

variable {α β : Type}

/-- Two records one after the other are plain if each of them is. -/
theorem Traced.IsPlain.append {first : Traced α} {second : Traced β} (h : first.IsPlain)
    (hsecond : second.IsPlain) (x : β) :
    (⟨x, first.events ++ second.events⟩ : Traced β).IsPlain := by
  intro error herror
  rw [Traced.errors, List.filterMap_append] at herror
  exact (List.mem_append.mp herror).elim (h error) (hsecond error)

/-- The empty record is plain. -/
theorem Traced.isPlain_nil (x : α) : (⟨x, []⟩ : Traced α).IsPlain := fun _ herror => nomatch herror

namespace Recovering

/-- `>>=` is plain if both of its readers are. -/
theorem IsPlain.bind {reader : Recovering α} {next : α → Recovering β} (h : reader.IsPlain)
    (hnext : ∀ x, (next x).IsPlain) : Recovering.IsPlain (reader >>= next) := by
  intro start hstart
  obtain ⟨hrecord, hstop⟩ := h start hstart
  obtain ⟨hmore, hlast⟩ := hnext (reader start).value.1 _ hstop
  exact ⟨hrecord.append hmore _, hlast⟩

/-- `pure` is a plain reader. -/
theorem isPlain_pure (x : α) : Recovering.IsPlain (pure x) :=
  fun _ hstart => ⟨Traced.isPlain_nil _, hstart⟩

/-- `get` is a plain reader. -/
theorem isPlain_get : Recovering.IsPlain get := fun _ hstart => ⟨Traced.isPlain_nil _, hstart⟩

/-- `acceptText` is a plain reader. -/
theorem isPlain_acceptText (lexeme : String) : Recovering.IsPlain (Rule.acceptText lexeme) :=
  fun _ hstart => ⟨Traced.isPlain_nil _, hstart.accept _⟩

/-- `record` is plain for an event that is no error or a plain one. -/
theorem isPlain_record {event : Event}
    (h : ∀ error ∈ event.error?, isPlain error.fault.message = true) :
    Recovering.IsPlain (record event) := by
  refine fun start hstart => ⟨fun error herror => h error ?_, hstart⟩
  obtain ⟨found, hfound, herror⟩ := List.mem_filterMap.mp herror
  rw [List.mem_singleton.mp hfound] at herror
  exact herror

/-- `record` is plain for an event that is no error, as most of them are. -/
theorem isPlain_record_of_none {event : Event} (h : event.error? = none) :
    Recovering.IsPlain (record event) := by
  refine isPlain_record fun error herror => ?_
  rw [h] at herror
  cases herror

end Recovering

namespace Attempt

/-- `>>=` is plain if both of its attempts are. -/
theorem IsPlain.bind {attempt : Attempt α} {next : α → Attempt β} (h : attempt.IsPlain)
    (hnext : ∀ x, (next x).IsPlain) : Attempt.IsPlain (attempt >>= next) := by
  intro start hstart
  obtain ⟨hrecord, hend⟩ := h start hstart
  show ((attempt start).run >>= ExceptT.bindCont fun found => next found.1 found.2).IsPlain ∧
    EndsPlainly ((attempt start).run >>= ExceptT.bindCont fun found => next found.1 found.2).value
  rw [Traced.bind_eq]
  generalize (attempt start).run = outcome at hrecord hend ⊢
  obtain ⟨value, events⟩ := outcome
  cases hend with
  | @ok x middle hmiddle =>
    obtain ⟨hmore, hlast⟩ := hnext x middle hmiddle
    exact ⟨hrecord.append hmore _, hlast⟩
  | @error failure hfailure hcursor =>
    refine ⟨?_, .error hfailure hcursor⟩
    exact hrecord.append (Traced.isPlain_nil (Except.error failure : Except Failure (β × Cursor))) _

/-- `pure` is a plain attempt. -/
theorem isPlain_pure (x : α) : Attempt.IsPlain (pure x) :=
  fun _ hstart => ⟨Traced.isPlain_nil _, .ok hstart⟩

/-- `get` is a plain attempt. -/
theorem isPlain_get : Attempt.IsPlain get := fun _ hstart => ⟨Traced.isPlain_nil _, .ok hstart⟩

/-- A plain rule is a plain attempt. -/
theorem isPlain_rule {rule : Rule α} (h : ∀ bound, rule.IsPlain bound) :
    Attempt.IsPlain (liftM rule) := by
  intro start hstart
  refine ⟨Traced.isPlain_nil _, ?_⟩
  obtain ⟨hadvances, hfailure⟩ := h start.ahead.length
  replace hadvances := hadvances start
  replace hfailure := hfailure start
  show EndsPlainly (rule start)
  generalize rule start = outcome at hadvances hfailure
  cases hadvances with
  | ok hread => exact .ok (hstart.of_reads hread)
  | error hread =>
    exact .error (hfailure _ hstart (Nat.le_refl _) rfl) (hstart.of_reads hread)

/-- A plain reader is a plain attempt. -/
theorem isPlain_reader {reader : Recovering α} (h : reader.IsPlain) :
    Attempt.IsPlain (liftM reader) := by
  intro start hstart
  obtain ⟨hrecord, hstop⟩ := h start hstart
  exact ⟨hrecord, .ok hstop⟩

/-- `expect` is plain if it says in plain words what is wanted. -/
theorem isPlain_expect (lexeme : String) {wanted : Wanted}
    (h : Text.isPlain wanted.message = true) : Attempt.IsPlain (Rule.expect lexeme wanted) :=
  isPlain_rule fun _ => Rule.isPlain_require _ h

/-- `skip` is plain, whatever the token. -/
theorem isPlain_skip : Attempt.IsPlain Rule.skip :=
  fun _ hstart => ⟨Traced.isPlain_nil _, .ok hstart.advance⟩

/-- `acceptText` before an attempt is plain if the attempt is for no token, and for each token with
that text. -/
theorem IsPlain.bind_acceptText {lexeme : String} {next : Option Token → Attempt β}
    (hnone : (next none).IsPlain)
    (hsome : ∀ token : Token, token.lexeme = lexeme → (next (some token)).IsPlain) :
    Attempt.IsPlain (Rule.acceptText lexeme >>= next) := by
  intro start hstart
  have hstop := hstart.accept (·.lexeme == lexeme)
  have haccept : ∀ token, (start.accept (·.lexeme == lexeme)).1 = some token →
      token.lexeme = lexeme := fun _ => Cursor.lexeme_eq_of_accept
  obtain ⟨outcome, houtcome⟩ : ∃ outcome, start.accept (·.lexeme == lexeme) = outcome := ⟨_, rfl⟩
  have hrun : (Rule.acceptText lexeme >>= next : Attempt β) start = next outcome.1 outcome.2 := by
    rw [← houtcome]
    rfl
  rw [houtcome] at hstop haccept
  rw [hrun]
  obtain ⟨token?, stop⟩ := outcome
  cases token? with
  | none => exact hnone stop hstop
  | some token => exact hsome token (haccept token rfl) stop hstop

/-- `recover` is plain: it records the failure and goes on further ahead. -/
theorem IsPlain.recover {attempt : Attempt (Option α)} (h : attempt.IsPlain) :
    attempt.recover.IsPlain := by
  intro start hstart
  obtain ⟨hrecord, hend⟩ := h start hstart
  unfold Attempt.recover
  dsimp only
  generalize (attempt start).run = outcome at hrecord hend ⊢
  obtain ⟨value, events⟩ := outcome
  cases hend with
  | ok hstop => exact ⟨hrecord, hstop⟩
  | @error failure hfailure hcursor =>
    dsimp only
    constructor
    · -- the failure is the last thing on the record
      intro error herror
      rw [Traced.errors, List.filterMap_append] at herror
      rcases List.mem_append.mp herror with herror | herror
      · exact hrecord error herror
      · rw [List.mem_singleton.mp herror]
        exact hfailure
    · -- reading goes on behind the failure, or else behind the first token
      unfold Cursor.resumeAfter
      dsimp only
      split
      · exact hstart.advance
      · exact hcursor.synchronize

end Attempt

/-! ## Statements -/

namespace Grammar

variable {lineEnd : Int → Int}

section

open Recovering

/-- `terminate` is plain if it says in plain words what the semicolon should end. -/
theorem isPlain_terminate {after : Clause}
    (h : isPlain (Fault.missingSemicolon after).message = true) (stop : Int) :
    Recovering.IsPlain (terminate lineEnd after stop) := by
  refine isPlain_get.bind fun start => (isPlain_acceptText ";").bind fun token? => ?_
  cases token? with
  | some token =>
    exact (isPlain_record_of_none rfl).bind fun _ => isPlain_pure token.stop
  | none =>
    refine (isPlain_record fun error herror => ?_).bind fun _ => isPlain_pure stop
    cases herror
    exact h

/-- `listEnds` is plain. -/
theorem isPlain_listEnds (closing : Option String) : Recovering.IsPlain (listEnds closing) :=
  fun _ hstart => ⟨Traced.isPlain_nil _, hstart⟩

/-- `statements` are plain if each statement is. -/
theorem isPlain_statements {statement : Recovering (Option Node)} (h : statement.IsPlain)
    (closing : Option String) (bound : Nat) : (statements closing statement bound).IsPlain := by
  induction bound with
  | zero => exact isPlain_pure []
  | succ bound ih =>
    refine (isPlain_listEnds closing).bind fun ends => ?_
    cases ends with
    | true => exact isPlain_pure []
    | false => exact h.bind fun first => ih.bind fun rest => isPlain_pure _

/-- `body` is plain if the statements inside are. -/
theorem isPlain_body {statement : Recovering (Option Node)} (h : statement.IsPlain) (bound : Nat) :
    (body statement bound).IsPlain := by
  refine isPlain_get.bind fun start => (isPlain_acceptText _).bind fun opening? => ?_
  cases opening? with
  | none => exact h.bind fun found => isPlain_get.bind fun stop => isPlain_pure _
  | some opening =>
    refine (isPlain_statements h _ bound).bind fun found => isPlain_get.bind fun stop =>
      (isPlain_acceptText _).bind fun closing? => ?_
    cases closing? <;> exact (isPlain_record_of_none rfl).bind fun _ => isPlain_pure _

end

open Attempt

variable {body : Recovering Body}

/-- `declaration` is plain. -/
theorem isPlain_declaration (keyword : Token) : (declaration lineEnd keyword).IsPlain :=
  (isPlain_rule fun _ => isPlain_binding keyword).bind fun found =>
    (isPlain_reader (isPlain_terminate (by decide) _)).bind fun stop => isPlain_pure _

/-- `functionStatement` is plain if its body is. -/
theorem isPlain_functionStatement (hbody : body.IsPlain) (bound : Nat) (keyword : Token) :
    (functionStatement bound body keyword).IsPlain :=
  (isPlain_rule fun _ => Rule.isPlain_name (by decide)).bind fun name =>
    (isPlain_expect _ (by decide)).bind fun _ =>
      (isPlain_rule fun _ => isPlain_parameters bound).bind fun params =>
        (isPlain_expect _ (by decide)).bind fun _ =>
          (isPlain_reader hbody).bind fun found => isPlain_pure _

/-- `classStatement` is plain if its body is. -/
theorem isPlain_classStatement (hbody : body.IsPlain) (keyword : Token) :
    (classStatement body keyword).IsPlain :=
  (isPlain_rule fun _ => Rule.isPlain_name (by decide)).bind fun name =>
    (isPlain_rule fun _ => isPlain_classBodyAhead).bind fun _ =>
      (isPlain_reader hbody).bind fun found => isPlain_pure _

/-- `conditional` is plain if its body and what follows that are: its word is one of two. -/
theorem isPlain_conditional {alternate : Attempt Node} (halternate : alternate.IsPlain)
    (hbody : body.IsPlain) {keyword : Token}
    (h : keyword.lexeme = "if" ∨ keyword.lexeme = "elif") :
    (conditional alternate body keyword).IsPlain := by
  have hmessage : isPlain (Wanted.openParen keyword.lexeme).message = true := by
    rcases h with h | h <;> rw [h] <;> decide
  refine (isPlain_expect _ hmessage).bind fun _ => ?_
  refine (isPlain_rule fun _ => isPlain_expression).bind fun test => ?_
  refine (isPlain_expect _ (by decide)).bind fun _ => ?_
  refine (isPlain_reader hbody).bind fun consequent => ?_
  exact halternate.bind fun rest => isPlain_pure _

/-- `alternate` is plain if the bodies are. -/
theorem isPlain_alternate (hbody : body.IsPlain) (bound : Nat) :
    (alternate body bound).IsPlain := by
  induction bound with
  | zero => exact isPlain_pure _
  | succ bound ih =>
    have hbodyNode : Attempt.IsPlain (do return (← body).node : Attempt Node) :=
      (isPlain_reader hbody).bind fun found => isPlain_pure found.node
    refine IsPlain.bind_acceptText ?_ fun _ _ => ?_
    · exact IsPlain.bind_acceptText (isPlain_pure _) fun keyword hkeyword =>
        isPlain_conditional ih hbody (.inr hkeyword)
    · exact IsPlain.bind_acceptText hbodyNode fun keyword hkeyword =>
        isPlain_conditional ih hbody (.inl hkeyword)

/-- `whileStatement` is plain if its body is. -/
theorem isPlain_whileStatement (hbody : body.IsPlain) (keyword : Token) :
    (whileStatement body keyword).IsPlain :=
  (isPlain_expect _ (by decide)).bind fun _ =>
    (isPlain_rule fun _ => isPlain_expression).bind fun test =>
      (isPlain_expect _ (by decide)).bind fun _ =>
        (isPlain_reader hbody).bind fun found => isPlain_pure _

/-- `forStatement` is plain if its body is. -/
theorem isPlain_forStatement (hbody : body.IsPlain) (keyword : Token) :
    (forStatement body keyword).IsPlain := by
  refine (isPlain_expect _ (by decide)).bind fun _ => ?_
  refine (isPlain_rule fun _ => isPlain_optionalClause isPlain_loopInit ";").bind fun init => ?_
  refine (isPlain_expect _ (by decide)).bind fun _ => ?_
  refine (isPlain_rule fun _ => isPlain_optionalClause isPlain_expression ";").bind fun test => ?_
  refine (isPlain_expect _ (by decide)).bind fun _ => ?_
  refine (isPlain_rule fun _ =>
    isPlain_optionalClause isPlain_expressionOrAssignment ")").bind fun update => ?_
  refine (isPlain_expect _ (by decide)).bind fun _ => ?_
  exact (isPlain_reader hbody).bind fun found => isPlain_pure _

/-- `expressionStatement` is plain. -/
theorem isPlain_expressionStatement : (expressionStatement lineEnd).IsPlain := by
  refine (isPlain_rule fun _ => isPlain_expressionOrAssignment).bind fun tree => ?_
  have hend {after : Clause} (h : isPlain (Fault.missingSemicolon after).message = true)
      (offset : Int) (node : Int → Node) : IsPlain (do
        let stop ← terminate lineEnd after offset
        return node stop : Attempt Node) :=
    (isPlain_reader (isPlain_terminate h offset)).bind fun stop => isPlain_pure _
  split
  · exact hend (by decide) _ _
  · exact hend (by decide) _ _

/-- `keywordStatement?` is plain if the bodies are. -/
theorem isPlain_keywordStatement (hbody : body.IsPlain) {bound : Nat} {start : Cursor}
    {keyword : Token} {rest : Attempt Node}
    (h : keywordStatement? lineEnd bound body start keyword = some rest) : rest.IsPlain := by
  unfold keywordStatement? at h
  split at h
  · split at h <;> cases h
    · exact isPlain_declaration keyword
    · next hword => exact isPlain_conditional (isPlain_alternate hbody bound) hbody (.inl hword)
    · exact isPlain_whileStatement hbody keyword
    · exact isPlain_forStatement hbody keyword
    · exact isPlain_functionStatement hbody bound keyword
    · exact isPlain_classStatement hbody keyword
    · exact isPlain_rule fun _ => isPlain_returnStatement start
  · cases h

/-- `skipToBoundary` is plain, since it records no error. -/
theorem isPlain_skipToBoundary (token : Token) : Recovering.IsPlain (skipToBoundary token) :=
  fun _ hstart => ⟨by simp [Traced.IsPlain, Traced.errors, skipToBoundary, Event.error?],
    hstart.advance.synchronize⟩

/-- `attempt` is plain if the bodies are. -/
theorem isPlain_attempt (hbody : body.IsPlain) (bound : Nat) :
    (attempt lineEnd bound body).IsPlain := by
  have hevent {event : Event} (h : event.error? = none) : Attempt.IsPlain (record event) :=
    isPlain_reader (Recovering.isPlain_record_of_none h)
  have hcompleted (start : Cursor) (node : Node) : (completed start node).IsPlain :=
    isPlain_get.bind fun stop => (hevent rfl).bind fun _ => isPlain_pure _
  refine isPlain_get.bind fun start => ?_
  split
  · next token htoken =>
    refine (hevent rfl).bind fun _ => ?_
    split
    · next rest hrest =>
      exact isPlain_skip.bind fun _ =>
        (isPlain_keywordStatement hbody hrest).bind fun node => hcompleted start node
    · split
      · exact isPlain_expressionStatement.bind fun node => hcompleted start node
      · exact isPlain_reader (isPlain_skipToBoundary token)
  · exact isPlain_pure none

/-- `statementWithin` is plain. -/
theorem isPlain_statementWithin (bound : Nat) : (statementWithin lineEnd bound).IsPlain := by
  induction bound with
  | zero => exact Recovering.isPlain_pure none
  | succ bound ih => exact (isPlain_attempt (isPlain_body ih bound) bound).recover

end Grammar

/-! ## Documents -/

/-- The syntax errors of a document have plain messages. -/
theorem isPlain_of_mem_errors {text : List Char} {reading : Reading}
    (h : readDocument text = .ok reading) {error : SyntaxError} (herror : error ∈ reading.errors) :
    isPlain error.fault.message = true := by
  obtain ⟨tokens, htokens, -⟩ := exists_course h
  obtain ⟨-, hevents⟩ := reading_eq htokens h
  unfold Reading.errors at herror
  rw [hevents] at herror
  have hstart : (Cursor.ofTokens tokens).IsPlain := isPlain_of_tokenize htokens
  have hstatement := @isPlain_statementWithin (Text.lineEnd text) tokens.length
  exact (isPlain_statements hstatement none tokens.length _ hstart).1 error herror

/-- Bindings that declare names and assign to them. -/
def BindNames (bindings : List Node) : Prop :=
  ∀ binding ∈ bindings, IsDeclaration binding ∨ IsAssignment binding

namespace BindNames

/-- `BindNames` holds of the bindings of two parts if it does of those of each. -/
theorem append {first second : List Node} (h : BindNames first) (hsecond : BindNames second) :
    BindNames (first ++ second) := List.forall_mem_append.mpr ⟨h, hsecond⟩

/-- `BindNames` holds of the bindings of a block if it does of those of each statement. -/
theorem block {span : Span} {nodes : List Node} (h : ∀ node ∈ nodes, BindNames node.bindings) :
    BindNames (Node.block span nodes).bindings := by
  rw [Node.bindings_block]
  intro binding hbinding
  obtain ⟨node, hnode, hbinding⟩ := List.mem_flatMap.mp hbinding
  exact h node hnode binding hbinding

/-- `BindNames` holds of an expression, which has no bindings. -/
theorem of_isExpression {node : Node} (h : node = .absent ∨ IsExpression node) :
    BindNames node.bindings := by
  rcases h with rfl | h
  · simp [BindNames]
  · simp [BindNames, Node.bindings_of_isExpression h]

/-- `BindNames` holds of a binding by itself. -/
theorem of_binding {node : Node} (h : IsDeclaration node ∨ IsAssignment node) :
    BindNames node.bindings := by
  rw [Node.bindings_of_binding h]
  exact List.forall_mem_singleton.mpr h

/-- `BindNames` holds of the bindings of a statement. -/
theorem of_isStatement {node : Node} (h : IsStatement node) : BindNames node.bindings := by
  induction h with
  | declaration h => exact of_binding (.inl h)
  | assignment h _ => exact of_binding (.inr h)
  | expression h _ =>
    rw [Node.bindings_expressionStatement]
    exact of_isExpression (.inr h)
  | returns h =>
    rw [Node.bindings_returnStatement]
    exact of_isExpression h
  | conditional htest _ ih =>
    rw [Node.bindings_ifStatement]
    exact (of_isExpression (.inr htest)).append ((block ih).append (of_isExpression (.inl rfl)))
  | conditionalElse htest _ _ ih ihother =>
    rw [Node.bindings_ifStatement]
    exact (of_isExpression (.inr htest)).append ((block ih).append (block ihother))
  | conditionalChain htest _ _ ih ihnext =>
    rw [Node.bindings_ifStatement]
    exact (of_isExpression (.inr htest)).append ((block ih).append ihnext)
  | loop htest _ ih =>
    rw [Node.bindings_whileStatement]
    exact (of_isExpression (.inr htest)).append (block ih)
  | forLoop hinit htest hupdate _ ih =>
    rw [Node.bindings_forStatement]
    have hinit := (Check.initClause_cases hinit).elim of_isExpression of_binding
    have hupdate := (Check.updateClause_cases hupdate).elim of_isExpression of_binding
    exact hinit.append ((of_isExpression htest).append (hupdate.append (block ih)))
  | @function _ _ _ _ params _ _ _ _ ih =>
    -- parameters are names, which bind nothing themselves
    have hparams : (params.map fun param => Node.identifier param.1 param.2).flatMap
        Node.bindings = [] := by
      simp [List.flatMap_map]
    rw [Node.bindings_functionDeclaration, hparams, Node.bindings_identifier]
    exact block ih
  | declaredClass _ _ ih =>
    rw [Node.bindings_classDeclaration, Node.bindings_identifier]
    exact block ih

end BindNames

/-- The name of a binding is plain. -/
theorem isPlain_of_binding {node : Node} (h : IsDeclaration node ∨ IsAssignment node) {span : Span}
    {name : String} (hname : .identifier span name ∈ node.children.head?) :
    isPlain name = true := by
  rcases h with ⟨-, hisName, -⟩ | ⟨hisName, -⟩ <;> cases hname
  · exact hisName.isPlain
  · rcases hisName with hisName | rfl
    · exact hisName.isPlain
    · decide

/-- The types have plain names. -/
theorem TypeTag.isPlain_name (type : TypeTag) : isPlain type.name = true := by
  cases type <;> decide

/-- The `text` of a receiver is plain if its name is. -/
theorem Receiver.isPlain_text {receiver : Receiver} {name : String} (h : isPlain name = true)
    (hreceiver : receiver = .declaration name ∨ receiver = .assignment name) :
    isPlain receiver.text = true := by
  have hafter : isPlain "'" = true := by decide
  rcases hreceiver with rfl | rfl <;> unfold text <;>
    simp only [toString, isPlain_append, Bool.and_eq_true]
  · exact ⟨⟨by decide, h⟩, hafter⟩
  · exact ⟨⟨by decide, h⟩, hafter⟩

/-- The message of a mismatch is plain if the `text` of its receiver is. -/
theorem TypeMismatch.isPlain_message {mismatch : TypeMismatch}
    (h : isPlain mismatch.receiver.text = true) : isPlain mismatch.problem.message = true := by
  unfold problem
  simp only [toString, isPlain_append, Bool.and_eq_true]
  have htypes : ((isPlain "expected " = true ∧ isPlain mismatch.expected.name = true) ∧
      isPlain " but got " = true) ∧ isPlain mismatch.actual.name = true :=
    ⟨⟨⟨by decide, TypeTag.isPlain_name _⟩, by decide⟩, TypeTag.isPlain_name _⟩
  exact ⟨⟨⟨by decide, htypes⟩, by decide⟩, h⟩

/-- The type errors of a document have plain messages. -/
theorem isPlain_of_mem_mismatches {text : List Char} {reading : Reading}
    (h : readDocument text = .ok reading) {nested : Bool} {mismatch : TypeMismatch}
    (hmismatch : mismatch ∈ reading.mismatches nested) :
    isPlain mismatch.problem.message = true := by
  obtain ⟨binding, hbinding, typeOf?, hjudgement⟩ := Reading.isOf_of_mem_mismatches hmismatch
  obtain ⟨statement, hstatement, hbinding⟩ := List.mem_flatMap.mp hbinding
  have hstatement := isStatement_of_readDocument h statement hstatement
  have hkind := BindNames.of_isStatement hstatement binding hbinding
  obtain ⟨span, name, -, hname, -, hreceiver, -⟩ := Node.exists_children_of_judgement hjudgement
  have hname := isPlain_of_binding hkind hname
  exact TypeMismatch.isPlain_message (Receiver.isPlain_text hname hreceiver)

/-- A diagnostic says something plain, whatever the text and the settings. -/
theorem isPlain_of_mem_diagnostics {file : String} {text : List Char} {settings : Settings}
    {diagnostic : Diagnostic} (h : diagnostic ∈ (validate file text settings).diagnostics) :
    isPlain diagnostic.message = true := by
  obtain ⟨reading, problem, hreading, hproblem, rfl⟩ := exists_problem_of_mem_diagnostics h
  show isPlain problem.message = true
  rcases List.mem_append.mp hproblem with hproblem | hproblem
  · obtain ⟨error, herror, rfl⟩ := List.mem_map.mp hproblem
    exact isPlain_of_mem_errors hreading herror
  · obtain ⟨mismatch, hmismatch, rfl⟩ := List.mem_map.mp hproblem
    exact isPlain_of_mem_mismatches hreading hmismatch

end NeutronLang
