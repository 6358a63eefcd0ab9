import NeutronLang.Proofs.BareRules

/-!
# Statements on bare tokens

Reading statements of bare tokens gives the statements without their spans, and the same record of
events, made bare. The text of the document is read for one purpose only, to see where a line ends
that lacks its semicolon; among bare tokens all lines end at one place.
-/

namespace NeutronLang

open Grammar Node

/-- The reader `bared` gives of bare tokens what `reader` gives of the tokens, without layout. -/
def Recovering.Bares {α β : Type} (f : α → β) (reader : Recovering α) (bared : Recovering β) :
    Prop :=
  ∀ start : Cursor, bared start.bare = ⟨(f (reader start).value.1, (reader start).value.2.bare),
    (reader start).events.map Event.bare⟩

/-- The attempt `bared` gives of bare tokens what `attempt` gives of the tokens, without layout. -/
def Attempt.Bares {α β : Type} (f : α → β) (attempt : Attempt α) (bared : Attempt β) : Prop :=
  ∀ start : Cursor, (bared start.bare).run = ⟨Failure.bareOutcome f (attempt start).run.value,
    (attempt start).run.events.map Event.bare⟩

variable {α β γ δ : Type} {f : α → β} {g : γ → δ}

namespace Recovering

/-- `>>=` bares if both of its readers do. -/
theorem Bares.bind {reader : Recovering α} {bared : Recovering β} {next : α → Recovering γ}
    {next' : β → Recovering δ} (h : Bares f reader bared)
    (hnext : ∀ x, Bares g (next x) (next' (f x))) :
    Bares g (reader >>= next) (bared >>= next') := by
  intro start
  show (bared start.bare >>= fun (y, middle) => next' y middle) = _
  rw [h start, Traced.bind_eq]
  dsimp only
  rw [hnext _ _, ← List.map_append]
  rfl

/-- `pure` bares as a reader if its answers do. -/
theorem bares_pure {x : α} {y : β} (h : y = f x) : Bares f (pure x) (pure y) := by
  subst h
  exact fun _ => rfl

/-- `get` bares as a reader: the place is that among the bare tokens. -/
theorem bares_get : Bares Cursor.bare (get : Recovering Cursor) get := fun _ => rfl

/-- `record` bares if its event does. -/
theorem bares_record {event event' : Event} (h : event' = event.bare) :
    Bares id (record event) (record event') := by
  subst h
  exact fun _ => rfl

/-- `acceptText` bares as a reader. -/
theorem bares_acceptText (lexeme : String) :
    Bares (Option.map Token.bare) (Rule.acceptText lexeme : Recovering (Option Token))
      (Rule.acceptText lexeme) := by
  intro start
  show (⟨start.bare.accept (·.lexeme == lexeme), []⟩ : Traced _) = _
  rw [start.accept_bare fun _ => rfl]
  rfl

end Recovering

namespace Attempt

/-- `>>=` bares if both of its attempts do. -/
theorem Bares.bind {attempt : Attempt α} {bared : Attempt β} {next : α → Attempt γ}
    {next' : β → Attempt δ} (h : Bares f attempt bared)
    (hnext : ∀ x, Bares g (next x) (next' (f x))) :
    Bares g (attempt >>= next) (bared >>= next') := by
  intro start
  show (bared start.bare).run >>= ExceptT.bindCont (fun (y, middle) => next' y middle) =
    ⟨Failure.bareOutcome g ((attempt start).run >>= ExceptT.bindCont fun (x, middle) =>
      next x middle).value, List.map Event.bare ((attempt start).run >>= ExceptT.bindCont
        fun (x, middle) => next x middle).events⟩
  rw [h start, Traced.bind_eq, Traced.bind_eq]
  generalize (attempt start).run = outcome
  obtain ⟨value, events⟩ := outcome
  cases value with
  | ok outcome =>
    obtain ⟨x, middle⟩ := outcome
    have hrest := hnext x middle
    show (⟨(next' (f x) middle.bare).run.value, _ ++ (next' (f x) middle.bare).run.events⟩ :
      Traced _) = ⟨Failure.bareOutcome g (next x middle).run.value,
        List.map Event.bare (events ++ (next x middle).run.events)⟩
    rw [hrest, List.map_append]
  | error failure =>
    have hrecord : events.map Event.bare ++ [] = (events ++ []).map Event.bare := by
      rw [List.append_nil, List.append_nil]
    exact congrArg (Traced.mk (Except.error failure.bare)) hrecord

/-- `pure` bares as an attempt if its answers do. -/
theorem bares_pure {x : α} {y : β} (h : y = f x) : Bares f (pure x) (pure y) := by
  subst h
  exact fun _ => rfl

/-- `get` bares as an attempt: the place is that among the bare tokens. -/
theorem bares_get : Bares Cursor.bare (get : Attempt Cursor) get := fun _ => rfl

/-- A rule bares as an attempt if it does by itself. -/
theorem bares_rule {rule : Rule α} {bared : Rule β} (h : Rule.Bares f rule bared) :
    Bares f (liftM rule) (liftM bared) := by
  intro start
  show (⟨bared start.bare, []⟩ : Traced _) = ⟨Failure.bareOutcome f (rule start), []⟩
  rw [h start]

/-- A reader bares as an attempt if it does by itself. -/
theorem bares_reader {reader : Recovering α} {bared : Recovering β}
    (h : Recovering.Bares f reader bared) : Bares f (liftM reader) (liftM bared) := by
  intro start
  show (⟨.ok (bared start.bare).value, (bared start.bare).events⟩ :
    Traced (Except Failure (β × Cursor))) = _
  rw [h start]
  rfl

/-- `skip` bares as an attempt. -/
theorem bares_skip : Bares id (Rule.skip : Attempt Unit) Rule.skip := bares_rule Rule.bares_skip

/-- `acceptText` bares as an attempt. -/
theorem bares_acceptText (lexeme : String) :
    Bares (Option.map Token.bare) (Rule.acceptText lexeme : Attempt (Option Token))
      (Rule.acceptText lexeme) := bares_rule (Rule.bares_acceptText lexeme)

/-- `recover` bares if its attempt does: recovery goes on at the same places. -/
theorem Bares.recover {attempt bared : Attempt (Option Node)}
    (h : Bares (Option.map withoutSpans) attempt bared) :
    Recovering.Bares (Option.map withoutSpans) attempt.recover bared.recover := by
  intro start
  unfold Attempt.recover
  rw [h start]
  generalize (attempt start).run = outcome
  obtain ⟨value, events⟩ := outcome
  cases value with
  | ok answer => rfl
  | error failure =>
    have hfailed : failure.bare.cursor = failure.cursor.bare := rfl
    dsimp only [Failure.bareOutcome]
    rw [Cursor.resumeAfter_bare, Failure.error_bare, hfailed, Cursor.index_bare, Cursor.index_bare,
      Cursor.index_bare, List.map_append]
    rfl

end Attempt

namespace Grammar

open Attempt

variable {lineEnd : Int → Int} {bound count : Nat} {keyword : Token} {body bared : Recovering Body}

/-- Where lines end among bare tokens. -/
def noLineEnd (_ : Int) : Int := 0

/-- The body without layout, its statements `withoutSpans`. -/
def Body.bare (body : Body) : Body := ⟨.point 0, body.statements.map withoutSpans⟩

/-- `node` of a bare body is that of the body, but for the spans. -/
theorem Body.node_bare (body : Body) : body.bare.node = body.node.withoutSpans := by
  simp only [Body.node, Body.bare, withoutSpans, mapSpans, mapSpansOfAll_eq_map]

/-- `terminate` bares: it ends at `0` among bare tokens. -/
theorem bares_terminate (after : Clause) (stop : Int) {stop' : Int} (h : stop' = 0) :
    Recovering.Bares (fun _ => 0) (terminate lineEnd after stop)
      (terminate noLineEnd after stop') := by
  subst h
  refine Recovering.bares_get.bind fun place => ?_
  refine (Recovering.bares_acceptText ";").bind fun semicolon? => ?_
  cases semicolon? with
  | some semicolon =>
    exact (Recovering.bares_record (by rw [Cursor.index_bare]; rfl)).bind fun _ =>
      Recovering.bares_pure rfl
  | none =>
    exact (Recovering.bares_record (by rw [Cursor.index_bare]; rfl)).bind fun _ =>
      Recovering.bares_pure rfl

/-- `declaration` bares. -/
theorem bares_declaration (keyword : Token) :
    Bares withoutSpans (declaration lineEnd keyword) (declaration noLineEnd keyword.bare) :=
  (bares_rule (bares_binding keyword)).bind fun found =>
    (bares_reader (bares_terminate _ _ (by rw [Binding.span_bare]; rfl))).bind fun stop =>
      Attempt.bares_pure (found.node_bare stop)

/-- `expect` bares as an attempt. -/
theorem bares_expectText (lexeme : String) (wanted : Wanted) :
    Bares Token.bare (liftM (Rule.expect lexeme wanted) : Attempt Token)
      (liftM (Rule.expect lexeme wanted)) :=
  bares_rule (Rule.bares_expect lexeme wanted)

/-- `functionStatement` bares if its body does. -/
theorem bares_functionStatement (h : Recovering.Bares Body.bare body bared) (keyword : Token) :
    Bares withoutSpans (functionStatement count body keyword)
      (functionStatement count bared keyword.bare) := by
  refine (bares_rule (Rule.bares_name _)).bind fun name => (bares_expectText _ _).bind fun _ =>
    (bares_rule (bares_parameters count)).bind fun params => (bares_expectText _ _).bind fun _ =>
      (bares_reader h).bind fun body => Attempt.bares_pure ?_
  rw [Body.node_bare]
  simp only [withoutSpans, mapSpans, mapSpansOfAll_eq_map]
  rfl

/-- `classStatement` bares if its body does. -/
theorem bares_classStatement (h : Recovering.Bares Body.bare body bared) (keyword : Token) :
    Bares withoutSpans (classStatement body keyword) (classStatement bared keyword.bare) := by
  refine (bares_rule (Rule.bares_name _)).bind fun name =>
    (bares_rule bares_classBodyAhead).bind fun _ =>
      (bares_reader h).bind fun body => Attempt.bares_pure ?_
  rw [Body.node_bare]
  rfl

/-- `whileStatement` bares if its body does. -/
theorem bares_whileStatement (h : Recovering.Bares Body.bare body bared) (keyword : Token) :
    Bares withoutSpans (whileStatement body keyword) (whileStatement bared keyword.bare) := by
  refine (bares_expectText _ _).bind fun _ => (bares_rule bares_expression).bind fun test =>
    (bares_expectText _ _).bind fun _ => (bares_reader h).bind fun body => Attempt.bares_pure ?_
  rw [Body.node_bare]
  rfl

/-- `forStatement` bares if its body does. -/
theorem bares_forStatement (h : Recovering.Bares Body.bare body bared) (keyword : Token) :
    Bares withoutSpans (forStatement body keyword) (forStatement bared keyword.bare) := by
  refine (bares_expectText _ _).bind fun _ =>
    (bares_rule (bares_optionalClause bares_loopInit _)).bind fun init =>
      (bares_expectText _ _).bind fun _ =>
        (bares_rule (bares_optionalClause bares_expression _)).bind fun test =>
          (bares_expectText _ _).bind fun _ =>
            (bares_rule (bares_optionalClause bares_expressionOrAssignment _)).bind fun update =>
              (bares_expectText _ _).bind fun _ => (bares_reader h).bind fun body =>
                Attempt.bares_pure ?_
  rw [Body.node_bare]
  rfl

/-- `conditional` bares if its body and what follows that do. -/
theorem bares_conditional {alternate alternate' : Attempt Node}
    (halternate : Bares withoutSpans alternate alternate')
    (h : Recovering.Bares Body.bare body bared) (keyword : Token) :
    Bares withoutSpans (conditional alternate body keyword)
      (conditional alternate' bared keyword.bare) := by
  refine (bares_expectText _ _).bind fun _ => (bares_rule bares_expression).bind fun test =>
    (bares_expectText _ _).bind fun _ => (bares_reader h).bind fun consequent =>
      halternate.bind fun alternate => Attempt.bares_pure ?_
  have hstop : (if alternate.withoutSpans.isAbsent then consequent.bare.span.stop
      else alternate.withoutSpans.span.stop) = 0 := by
    rw [span_withoutSpans]
    split <;> rfl
  rw [hstop, Body.node_bare]
  rfl

/-- `alternate` bares if the bodies do. -/
theorem bares_alternate (h : Recovering.Bares Body.bare body bared) :
    Bares withoutSpans (alternate body count) (alternate bared count) := by
  induction count with
  | zero => exact Attempt.bares_pure rfl
  | succ count ih =>
    refine (Attempt.bares_acceptText "else").bind fun word? => ?_
    cases word? with
    | some word =>
      refine (Attempt.bares_acceptText "if").bind fun keyword? => ?_
      cases keyword? with
      | some keyword => exact bares_conditional ih h keyword
      | none => exact (bares_reader h).bind fun body => Attempt.bares_pure body.node_bare
    | none =>
      refine (Attempt.bares_acceptText "elif").bind fun keyword? => ?_
      cases keyword? with
      | some keyword => exact bares_conditional ih h keyword
      | none => exact Attempt.bares_pure rfl

/-- `expressionStatement` bares. -/
theorem bares_expressionStatement :
    Bares withoutSpans (expressionStatement lineEnd) (expressionStatement noLineEnd) := by
  refine (bares_rule bares_expressionOrAssignment).bind fun tree => ?_
  cases tree with
  | assignment span operator target value =>
    exact (bares_reader (bares_terminate _ _ rfl)).bind fun stop => Attempt.bares_pure rfl
  | _ =>
    exact (bares_reader (bares_terminate _ _ rfl)).bind fun stop => Attempt.bares_pure rfl

/-- `keywordStatement?` selects a reader for a bare word if it does for the word, and the two
bare. -/
theorem bares_keywordStatement? (lineEnd : Int → Int) (bound : Nat)
    (h : Recovering.Bares Body.bare body bared) (start : Cursor) (keyword : Token) :
    Option.Rel (Bares withoutSpans) (keywordStatement? lineEnd bound body start keyword)
      (keywordStatement? noLineEnd bound bared start.bare keyword.bare) := by
  by_cases hlogical : keyword.lexeme ∈ logicalOperators
  · -- a logical operator opens no statement, whether it is a word or not
    simp only [logicalOperators, List.mem_cons, List.not_mem_nil, or_false] at hlogical
    rcases hlogical with hlexeme | hlexeme <;> simp [keywordStatement?, hlexeme]
  · have hword : keyword.bare.isKeyword = keyword.isKeyword := by
      simp [Token.isKeyword, Token.bare, hlogical]
    unfold keywordStatement?
    rw [hword, Token.lexeme_bare]
    cases keyword.isKeyword with
    | false => exact .none
    | true =>
      rw [if_pos rfl, if_pos rfl]
      split
      · exact .some (bares_declaration keyword)
      · exact .some (bares_conditional (bares_alternate h) h keyword)
      · exact .some (bares_whileStatement h keyword)
      · exact .some (bares_forStatement h keyword)
      · exact .some (bares_functionStatement h keyword)
      · exact .some (bares_classStatement h keyword)
      · exact .some (bares_rule (bares_returnStatement start))
      · exact .none

/-! ## Statements and bodies -/

/-- `listEnds` bares: a list of statements ends at the same places. -/
theorem bares_listEnds (closing : Option String) :
    Recovering.Bares id (listEnds closing) (listEnds closing) := by
  intro start
  have hsees : closing.any start.bare.sees = closing.any start.sees :=
    congrArg (closing.any ·) (funext start.sees_bare)
  show (⟨(start.bare.atEnd || closing.any start.bare.sees, start.bare), []⟩ : Traced _) = _
  rw [Cursor.atEnd_bare, hsees]
  rfl

/-- `statements` bare if each statement does. -/
theorem bares_statements {statement statement' : Recovering (Option Node)}
    (h : Recovering.Bares (Option.map withoutSpans) statement statement')
    (closing : Option String) (count : Nat) :
    Recovering.Bares (List.map withoutSpans) (statements closing statement count)
      (statements closing statement' count) := by
  induction count with
  | zero => exact Recovering.bares_pure rfl
  | succ count ih =>
    refine (bares_listEnds closing).bind fun ends => ?_
    cases ends with
    | true => exact Recovering.bares_pure rfl
    | false =>
      refine h.bind fun first => ih.bind fun more => Recovering.bares_pure ?_
      cases first <;> rfl

/-- `body` bares if its statements do. -/
theorem bares_body {statement statement' : Recovering (Option Node)}
    (h : Recovering.Bares (Option.map withoutSpans) statement statement') (bound : Nat) :
    Recovering.Bares Body.bare (Grammar.body statement bound) (Grammar.body statement' bound) := by
  refine Recovering.bares_get.bind fun start => ?_
  refine (Recovering.bares_acceptText "\x7b").bind fun opening? => ?_
  cases opening? with
  | some opening =>
    refine (bares_statements h _ bound).bind fun found => Recovering.bares_get.bind fun stop => ?_
    refine (Recovering.bares_acceptText "\x7d").bind fun closing? => ?_
    cases closing? with
    | some closing =>
      refine (Recovering.bares_record ?_).bind fun _ => Recovering.bares_pure rfl
      rw [Cursor.index_bare, Cursor.index_bare]
      rfl
    | none =>
      refine (Recovering.bares_record ?_).bind fun _ => Recovering.bares_pure ?_
      · rw [Cursor.index_bare]
        rfl
      · rw [Cursor.lastStop_bare]
        rfl
  | none =>
    refine h.bind fun found => Recovering.bares_get.bind fun stop => Recovering.bares_pure ?_
    rw [Cursor.spanTo_bare]
    cases found <;> rfl

/-- `completed` bares: a statement is recorded at the same place. -/
theorem bares_completed (start : Cursor) (node : Node) :
    Bares (Option.map withoutSpans) (completed start node)
      (completed start.bare node.withoutSpans) := by
  refine Attempt.bares_get.bind fun stop => (bares_reader (Recovering.bares_record ?_)).bind
    fun _ => Attempt.bares_pure rfl
  rw [Cursor.index_bare, Cursor.index_bare]
  rfl

/-- `attempt` bares if the bodies do. -/
theorem bares_attempt (h : Recovering.Bares Body.bare body bared) :
    Bares (Option.map withoutSpans) (attempt lineEnd bound body)
      (attempt noLineEnd bound bared) := by
  refine Attempt.bares_get.bind fun start => ?_
  rw [Cursor.next?_bare]
  cases start.next? with
  | none => exact Attempt.bares_pure rfl
  | some token =>
    have hbegan : Event.began start.bare.index = (Event.began start.index).bare := by
      rw [Cursor.index_bare]
      rfl
    refine (bares_reader (Recovering.bares_record hbegan)).bind fun _ => ?_
    have hrest := bares_keywordStatement? lineEnd bound h start token
    generalize keywordStatement? lineEnd bound body start token = rest at hrest ⊢
    generalize keywordStatement? noLineEnd bound bared start.bare token.bare = rest' at hrest ⊢
    -- either a word selects a reader from both tokens, or from neither
    cases hrest with
    | some hrest =>
      exact Attempt.bares_skip.bind fun _ => hrest.bind fun node => bares_completed start node
    | none =>
      dsimp only
      rw [Token.isIdentifier_bare]
      split
      · exact bares_expressionStatement.bind fun node => bares_completed start node
      · refine bares_reader fun place => ?_
        unfold skipToBoundary
        dsimp only
        rw [Cursor.advance_bare, Cursor.synchronize_bare, Cursor.index_bare, Cursor.index_bare]
        rfl

/-- `statementWithin` bares. -/
theorem bares_statementWithin (lineEnd : Int → Int) (bound : Nat) :
    Recovering.Bares (Option.map withoutSpans) (statementWithin lineEnd bound)
      (statementWithin noLineEnd bound) := by
  induction bound with
  | zero => exact Recovering.bares_pure rfl
  | succ bound ih => exact (bares_attempt (bares_body ih bound)).recover

end Grammar

end NeutronLang
