import NeutronLang.Proofs.Course

/-!
# Rules advance

Whether a rule succeeds or fails, it does so at a place that reading leads to, and a failure is that
of its place. Both are kept by everything that rules are put together with, so each rule for
expressions and each part of a statement has a lemma here that is little more than its definition
read aloud.

An outcome is said to be reached from an origin, which need not be where the rule starts: the
outcomes of an expression that starts with a name are reached from the place after that name
(`expression_reaches`), so an attempt at a statement never fails where it began.
-/

namespace NeutronLang

/-- The outcome of a rule is reached from a place by reading (`Cursor.Reads`), and a failure is
due. -/
inductive Rule.Reaches {α : Type} (origin : Cursor) : Except Failure (α × Cursor) → Prop where
  | ok {read : List Token} {x : α} {stop : Cursor} : origin.Reads read stop →
      Reaches origin (.ok (x, stop))
  | error {read : List Token} {failure : Failure} : origin.Reads read failure.cursor →
      failure.IsDue → Reaches origin (.error failure)

/-- From wherever a rule starts, it `Reaches` its outcome. -/
def Rule.Advances {α : Type} (rule : Rule α) : Prop := ∀ start, Reaches start (rule start)

namespace Rule

variable {α β : Type} {origin start middle : Cursor} {read : List Token}

/-- What a rule `Reaches` from a place it reaches from every place before that. -/
theorem Reaches.after {outcome : Except Failure (α × Cursor)} (hread : origin.Reads read middle)
    (h : Reaches middle outcome) : Reaches origin outcome := by
  cases h with
  | ok hmore => exact .ok (hread.trans hmore)
  | error hmore hdue => exact .error (hread.trans hmore) hdue

/-- `>>=` reaches its outcome from where its first rule does. -/
theorem Reaches.bind {rule : Rule α} {next : α → Rule β} (h : Reaches origin (rule start))
    (hnext : ∀ x, (next x).Advances) : Reaches origin ((rule >>= next) start) := by
  show Reaches origin (rule start >>= fun (x, middle) => next x middle)
  generalize rule start = outcome at h
  cases h with
  | ok hread => exact .after hread (hnext _ _)
  | error hread hdue => exact .error hread hdue

/-- `>>=` advances if both of its rules do. -/
theorem Advances.bind {rule : Rule α} {next : α → Rule β} (h : rule.Advances)
    (hnext : ∀ x, (next x).Advances) : (rule >>= next).Advances :=
  fun start => .bind (h start) hnext

/-- `withTokensAhead` advances if its rule does for any number of tokens. -/
theorem Advances.withTokensAhead {rule : Nat → Rule α} (h : ∀ bound, (rule bound).Advances) :
    (Grammar.withTokensAhead rule).Advances := fun start => h start.ahead.length start

/-- `pure` advances, since it reads nothing. -/
theorem advances_pure (x : α) : (pure x : Rule α).Advances := fun start => .ok (.refl start)

/-- `get` advances, since it reads nothing. -/
theorem advances_get : (get : Rule Cursor).Advances := fun start => .ok (.refl start)

/-- `sees` advances, since it reads nothing. -/
theorem advances_sees (lexeme : String) : Advances (sees lexeme : Rule Bool) :=
  fun start => .ok (.refl start)

/-- `missing` advances, since it fails where it stands. -/
theorem advances_missing (wanted : Wanted) : (missing wanted : Rule α).Advances :=
  fun start => .error (.refl start) (.inr ⟨wanted, rfl⟩)

/-- `unexpected` advances, since it fails where it stands. -/
theorem advances_unexpected : (unexpected : Rule α).Advances :=
  fun start => .error (.refl start) (.inl rfl)

/-- `accept` advances, whether it takes a token or not. -/
theorem advances_accept (wanted : Token → Bool) :
    Advances (accept wanted : Rule (Option Token)) := by
  intro start
  cases h : (accept wanted : Rule (Option Token)) start with
  | error => cases h
  | ok outcome =>
    rcases accept_eq_ok h with ⟨token, -, -, hread⟩ | ⟨-, -, hstop⟩
    · exact .ok hread
    · rw [← Prod.eta outcome, hstop]
      exact .ok (.refl start)

/-- `require` advances: a required token is read or missing. -/
theorem advances_require (accepted : Token → Bool) (wanted : Wanted) :
    (require accepted wanted).Advances := by
  refine (advances_accept accepted).bind fun token? => ?_
  cases token? with
  | some token => exact advances_pure token
  | none => exact advances_missing wanted

/-- `name` advances: a name is read or missing. -/
theorem advances_name (wanted : Wanted) : (name wanted).Advances :=
  (advances_require _ wanted).bind fun token => advances_pure token.node

/-- `moreItems` advances if its item does. -/
theorem advances_moreItems {item : Rule α} (h : item.Advances) (bound : Nat) :
    (moreItems item bound).Advances := by
  induction bound with
  | zero => exact advances_pure []
  | succ bound ih =>
    refine (advances_accept _).bind fun comma? => ?_
    cases comma? with
    | none => exact advances_pure []
    | some comma => exact h.bind fun first => ih.bind fun more => advances_pure (first :: more)

/-- `items` advances if its item does. -/
theorem advances_items {item : Rule α} (h : item.Advances) (bound : Nat) (close : String)
    (wanted : Wanted) : (items bound item close wanted).Advances := by
  have hitems : (itemsBefore bound item close).Advances := by
    refine (advances_sees close).bind fun seen => ?_
    cases seen with
    | true => exact advances_pure []
    | false =>
      exact h.bind fun first => (advances_moreItems h bound).bind fun more =>
        advances_pure (first :: more)
  exact hitems.bind fun found => (advances_require _ wanted).bind fun closing =>
    advances_pure (found, closing)

end Rule

namespace Grammar

open Rule

variable {start next : Cursor} {token : Token} {expression : Rule Node}

/-! ## Expressions -/

/-- `climb` advances if its operands do. -/
theorem advances_climb {operand : Rule Node} (h : operand.Advances) (bound : Nat) :
    ∀ least left, (climb operand bound least left).Advances := by
  induction bound with
  | zero => exact fun _ left => advances_pure left
  | succ bound ih =>
    intro least left
    refine (advances_accept _).bind fun token? => ?_
    cases token? with
    | none => exact advances_pure left
    | some token => exact h.bind fun first => (ih _ first).bind fun right => ih least _

/-- `unary` advances if its operand does. -/
theorem advances_unary {operand : Rule Node} (h : operand.Advances) (bound : Nat) :
    (unary operand bound).Advances := by
  induction bound with
  | zero => exact h
  | succ bound ih =>
    refine (advances_accept _).bind fun token? => ?_
    cases token? with
    | none => exact h
    | some token => exact ih.bind fun argument => advances_pure _

/-- `suffixes` advances if its arguments do. -/
theorem advances_suffixes {arguments : Rule (List Node × Token)} (h : arguments.Advances)
    (bound : Nat) : ∀ owner, (suffixes arguments bound owner).Advances := by
  induction bound with
  | zero => exact fun owner => advances_pure owner
  | succ bound ih =>
    intro owner
    refine (advances_accept _).bind fun token? => ?_
    cases token? with
    | none => exact advances_pure owner
    | some token =>
      dsimp only
      split
      · exact h.bind fun found => ih _
      · exact (advances_name _).bind fun member => ih _

/-- `property` advances if its value does. -/
theorem advances_property (h : expression.Advances) : (property expression).Advances :=
  (advances_require _ _).bind fun _ => (advances_require _ _).bind fun _ =>
    h.bind fun _ => advances_pure _

/-- `operand` that starts with a token reaches its outcome from after that token. -/
theorem operand_reaches (h : expression.Advances) (bound : Nat)
    (hread : start.Reads [token] next) (hopens : opensOperand token = true) :
    Reaches next (operand bound expression start) := by
  rw [operand_of_reads hread]
  cases hliteral : literal? token with
  | some node => exact .ok (.refl next)
  | none =>
  simp only [opensOperand, hliteral, Option.isSome_none, Bool.false_or] at hopens ⊢
  split
  · exact advances_suffixes (advances_items h bound _ _) bound _ next
  split
  · refine Advances.bind h (fun inner => ?_) next
    exact (advances_require _ _).bind fun _ => advances_pure inner
  split
  · exact (advances_items h bound _ _).bind (fun _ => advances_pure _) next
  split
  · exact (advances_items (advances_property h) bound _ _).bind (fun _ => advances_pure _) next
  · next hname hparen hbracket hbrace => simp_all

/-- `operand` fails where it stands if no operand starts there. -/
theorem operand_of_not_opens (bound : Nat)
    (hread : start.Reads [token] next) (hopens : opensOperand token = false) :
    operand bound expression start = (Rule.unexpected : Rule Node) start := by
  simp only [opensOperand, Bool.or_eq_false_iff] at hopens
  obtain ⟨⟨⟨⟨hliteral, hname⟩, hparen⟩, hbracket⟩, hbrace⟩ := hopens
  have hnone : literal? token = none := Option.not_isSome_iff_eq_none.mp (by simp [hliteral])
  rw [operand_of_reads hread, hnone]
  simp [hname, hparen, hbracket, hbrace]

/-- `operand` advances if the expressions inside do. -/
theorem advances_operand (h : expression.Advances) (bound : Nat) :
    (operand bound expression).Advances := by
  intro start
  cases hahead : start.ahead with
  | nil =>
    rw [operand_of_nil hahead]
    exact advances_unexpected start
  | cons token ahead =>
    have hread : start.Reads [token] ⟨token :: start.behind, ahead⟩ := ⟨hahead, rfl⟩
    cases hopens : opensOperand token with
    | true => exact .after hread (operand_reaches h bound hread hopens)
    | false =>
      rw [operand_of_not_opens bound hread hopens]
      exact advances_unexpected start

/-- `expressionWithin` advances. -/
theorem advances_expressionWithin (bound : Nat) : (expressionWithin bound).Advances := by
  induction bound with
  | zero => exact advances_unexpected
  | succ bound ih =>
    have hunary := advances_unary (advances_operand ih bound) (bound + 1)
    exact hunary.bind fun left => advances_climb hunary (bound + 1) 1 left

/-- `expression` advances. -/
theorem advances_expression : Grammar.expression.Advances :=
  .withTokensAhead advances_expressionWithin

/-- `unary` reaches its outcome from after its first token, if that is where the operand alone
does. -/
theorem unary_reaches {operand : Rule Node} (h : operand.Advances)
    (hread : start.Reads [token] next) (hoperand : Reaches next (operand start)) (bound : Nat) :
    Reaches next (unary operand (bound + 1) start) := by
  cases hsign : prefixOperators.contains token.lexeme with
  | true =>
    have haccept : (Rule.accept (prefixOperators.contains ·.lexeme) : Rule (Option Token)) start =
        .ok (some token, next) := Rule.accept_of_wanted hsign hread
    rw [unary, Rule.bind_of_eq_ok haccept]
    exact (advances_unary h bound).bind (fun argument => advances_pure _) next
  | false =>
    have haccept : (Rule.accept (prefixOperators.contains ·.lexeme) : Rule (Option Token)) start =
        .ok (none, start) :=
      Rule.accept_of_not_wanted fun first hfirst => by rwa [← hread.eq_of_mem_head? hfirst]
    rw [unary, Rule.bind_of_eq_ok haccept]
    exact hoperand

/-- `expression` reaches its outcome from after its first token, if an operand starts with that. -/
theorem expression_reaches (hread : start.Reads [token] next)
    (hopens : opensOperand token = true) : Reaches next (Grammar.expression start) := by
  show Reaches next (expressionWithin start.ahead.length start)
  rw [hread.length_ahead_token]
  have hexpression := advances_expressionWithin next.ahead.length
  have hoperand := advances_operand hexpression next.ahead.length
  have hunary := unary_reaches hoperand hread (operand_reaches hexpression _ hread hopens)
    next.ahead.length
  exact .bind hunary fun left => advances_climb (advances_unary hoperand _) _ 1 left

/-- `expressionOrAssignment` reaches its outcome from where its first expression does. -/
theorem expressionOrAssignment_reaches {origin : Cursor}
    (h : Reaches origin (Grammar.expression start)) :
    Reaches origin (expressionOrAssignment start) := by
  refine .bind h fun tree => ?_
  unfold Rule.Advances
  split
  · refine (advances_accept _).bind fun equals? => ?_
    cases equals? with
    | none => exact advances_pure _
    | some equals => exact advances_expression.bind fun value => advances_pure _
  · exact advances_pure _

/-- `expressionOrAssignment` advances. -/
theorem advances_expressionOrAssignment : expressionOrAssignment.Advances :=
  fun start => expressionOrAssignment_reaches (advances_expression start)

/-! ## Parts of statements -/

/-- `binding` advances. -/
theorem advances_binding (keyword : Token) : (binding keyword).Advances := by
  have hinitial : initialValue.Advances := by
    refine (advances_accept _).bind fun equals? => ?_
    cases equals? with
    | none => exact advances_pure _
    | some equals => exact advances_expression
  exact (advances_accept _).bind fun type => (advances_name _).bind fun name =>
    hinitial.bind fun init => advances_pure _

/-- `parameters` advances. -/
theorem advances_parameters (bound : Nat) : (parameters bound).Advances := by
  have hparameter : parameter.Advances :=
    (advances_accept _).bind fun token => advances_pure _
  have hmore (bound : Nat) : (moreParameters bound).Advances := by
    induction bound with
    | zero => exact advances_pure []
    | succ bound ih =>
      refine (advances_accept _).bind fun comma? => ?_
      cases comma? with
      | none => exact advances_pure []
      | some comma => exact hparameter.bind fun first => ih.bind fun more => advances_pure _
  refine (advances_sees _).bind fun seen => ?_
  cases seen with
  | true => exact advances_pure []
  | false => exact hparameter.bind fun first => (hmore bound).bind fun more => advances_pure _

/-- `classBodyAhead` advances: the opening brace is there or missing. -/
theorem advances_classBodyAhead : classBodyAhead.Advances := by
  refine (advances_sees _).bind fun seen => ?_
  cases seen with
  | true => exact advances_pure ()
  | false => exact advances_missing _

/-- `optionalClause` advances if its clause does. -/
theorem advances_optionalClause {clause : Rule Node} (h : clause.Advances) (close : String) :
    (optionalClause close clause).Advances := by
  refine (advances_sees _).bind fun seen => ?_
  cases seen with
  | true => exact advances_pure _
  | false => exact h

/-- `loopInit` advances. -/
theorem advances_loopInit : loopInit.Advances := by
  refine (advances_accept _).bind fun keyword? => ?_
  cases keyword? with
  | none => exact advances_expressionOrAssignment
  | some keyword => exact (advances_binding keyword).bind fun found => advances_pure _

/-- `returnStatement` advances. -/
theorem advances_returnStatement (start : Cursor) : (returnStatement start).Advances := by
  refine advances_get.bind fun place => ?_
  have hrest (argument : Node) : Advances (do
      let _ ← Rule.acceptText ";"
      return .returnStatement (start.spanTo (← get)) argument : Rule Node) :=
    (advances_accept _).bind fun _ => advances_get.bind fun stop => advances_pure _
  dsimp only
  split
  · exact (advances_pure _).bind hrest
  · exact advances_expression.bind hrest

end Grammar

end NeutronLang
