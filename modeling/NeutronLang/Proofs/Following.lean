import NeutronLang.Proofs.Advances

/-!
# Following a reader

What is stated of the outcome of a reader and of its record is taken apart along the steps of the
reader. A reader that never fails goes on from step to step; an attempt goes on after a rule where
the rule succeeds, and where it fails the attempt does, with a failure that is due at a place that
reading leads to. Records are put one after the other, those of the first steps first.
-/

namespace NeutronLang

/-- `accept` of a text succeeds or fails by the next token. -/
theorem Cursor.accept_text_cases (start : Cursor) (lexeme : String) :
    (∃ token place, token.lexeme = lexeme ∧ start.Reads [token] place ∧
      start.accept (·.lexeme == lexeme) = (some token, place)) ∨
    ((∀ token ∈ start.ahead.head?, token.lexeme ≠ lexeme) ∧
      start.accept (·.lexeme == lexeme) = (none, start)) := by
  by_cases h : ∃ token ∈ start.ahead.head?, token.lexeme = lexeme
  · obtain ⟨token, htoken, hlexeme⟩ := h
    obtain ⟨rest, hahead⟩ := List.head?_eq_some_iff.mp htoken
    have hread : start.Reads [token] ⟨token :: start.behind, rest⟩ := ⟨hahead, rfl⟩
    exact .inl ⟨token, _, hlexeme, hread, accept_of_wanted (beq_iff_eq.mpr hlexeme) hread⟩
  · have hne : ∀ token ∈ start.ahead.head?, token.lexeme ≠ lexeme :=
      fun token htoken hlexeme => h ⟨token, htoken, hlexeme⟩
    exact .inr ⟨hne, accept_of_not_wanted fun token htoken =>
      beq_eq_false_iff_ne.mpr (hne token htoken)⟩

/-- What is said of a reader of any kind that begins with `acceptText` holds if it does with the
token and without it. -/
theorem Rule.acceptText_bind_of {m : Type → Type} [Monad m] [LawfulMonad m] {α : Type}
    {lexeme : String} {next : Option Token → StateT Cursor m α} {start : Cursor}
    (said : m (α × Cursor) → Prop)
    (hnone : (∀ token ∈ start.ahead.head?, token.lexeme ≠ lexeme) → said (next none start))
    (hsome : ∀ token place, token.lexeme = lexeme → start.Reads [token] place →
      said (next (some token) place)) :
    said ((Rule.acceptText lexeme >>= next) start) := by
  rw [acceptText, run_accept_bind]
  rcases start.accept_text_cases lexeme with ⟨token, place, hlexeme, hread, h⟩ | ⟨hne, h⟩
  · rw [h]
    exact hsome token place hlexeme hread
  · rw [h]
    exact hnone hne

/-! ## Following a reader -/

namespace Recovering

variable {α : Type} {start : Cursor} {P : α → Cursor → List Event → Prop}

/-- What a reader gives from `start`, and what it records, are as `P` states. -/
def Follows (reader : Recovering α) (start : Cursor) (P : α → Cursor → List Event → Prop) : Prop :=
  P (reader start).value.1 (reader start).value.2 (reader start).events

/-- `pure` gives its answer where the reader stands. -/
theorem Follows.pure {x : α} (h : P x start []) : Follows (Pure.pure x) start P := h

/-- `get` before a reader goes on with the place where it stands. -/
theorem Follows.get {next : Cursor → Recovering α} (h : (next start).Follows start P) :
    Follows (MonadState.get >>= next) start P := h

/-- `record` before a reader puts its event before all others. -/
theorem Follows.record {event : Event} {next : Unit → Recovering α}
    (h : (next ()).Follows start fun x stop more => P x stop (event :: more)) :
    Follows (NeutronLang.record event >>= next) start P := h

/-- `>>=` goes on with the second reader, and the record of the first comes before all that
follows. -/
theorem Follows.bind {β : Type} {reader : Recovering β} {next : β → Recovering α}
    (h : (next (reader start).value.1).Follows (reader start).value.2 fun x stop more =>
      P x stop ((reader start).events ++ more)) :
    Follows (reader >>= next) start P := h

/-- `acceptText` before a reader goes on with the token or without it. -/
theorem Follows.acceptText {lexeme : String} {next : Option Token → Recovering α}
    (hnone : (∀ token ∈ start.ahead.head?, token.lexeme ≠ lexeme) → (next none).Follows start P)
    (hsome : ∀ token place, token.lexeme = lexeme → start.Reads [token] place →
      (next (some token)).Follows place P) :
    Follows (Rule.acceptText lexeme >>= next) start P :=
  Rule.acceptText_bind_of
    (fun outcome : Traced (α × Cursor) => P outcome.value.1 outcome.value.2 outcome.events)
    hnone hsome

end Recovering

/-! ## Following an attempt -/

namespace Attempt

variable {α β : Type} {start place : Cursor} {P : Except Failure (α × Cursor) → List Event → Prop}

/-- The outcome of an attempt from `start`, and what it records, are as `P` states. -/
def Follows (attempt : Attempt α) (start : Cursor)
    (P : Except Failure (α × Cursor) → List Event → Prop) : Prop :=
  P (attempt start).run.value (attempt start).run.events

/-- An attempt may fail with any failure that is due from `place` on, with nothing on the record. -/
def MayFail (P : Except Failure (α × Cursor) → List Event → Prop) (place : Cursor) : Prop :=
  ∀ read failure, place.Reads read failure.cursor → failure.IsDue → P (.error failure) []

/-- `MayFail` from a place on holds of every later one. -/
theorem MayFail.of_reads {read : List Token} (h : MayFail P start)
    (hread : start.Reads read place) :
    MayFail P place := fun _ failure hmore hdue => h _ failure (hread.trans hmore) hdue

/-- `pure` gives its answer where the attempt stands. -/
theorem Follows.pure {x : α} (h : P (.ok (x, start)) []) : Follows (Pure.pure x) start P := h

/-- A rule before an attempt goes on where it succeeds, and else it fails. The outcomes of the rule
are reached from a place from which the attempt may fail. -/
theorem Follows.ruleFrom {origin : Cursor} {rule : Rule β} {next : β → Attempt α}
    (hreaches : Rule.Reaches origin (rule start)) (hfail : MayFail P origin)
    (hnext : ∀ x place, rule start = .ok (x, place) → MayFail P place → (next x).Follows place P) :
    Follows (liftM rule >>= next) start P := by
  unfold Follows
  have hrun : ((liftM rule >>= next) start).run =
      (⟨rule start, []⟩ : Traced _) >>= ExceptT.bindCont fun (x, middle) => next x middle := rfl
  rw [hrun, Traced.bind_eq]
  cases houtcome : rule start with
  | ok outcome =>
    obtain ⟨x, place⟩ := outcome
    rw [houtcome] at hreaches
    cases hreaches with
    | ok hread => exact hnext x place houtcome (hfail.of_reads hread)
  | error failure =>
    rw [houtcome] at hreaches
    cases hreaches with
    | error hread hdue => exact hfail _ failure hread hdue

/-- A rule before an attempt goes on where it succeeds, and else it fails: it `Advances`. -/
theorem Follows.rule {rule : Rule β} {next : β → Attempt α} (hadvances : rule.Advances)
    (hfail : MayFail P start)
    (hnext : ∀ x place, rule start = .ok (x, place) → MayFail P place → (next x).Follows place P) :
    Follows (liftM rule >>= next) start P :=
  .ruleFrom (hadvances start) hfail hnext

/-- `get` before an attempt goes on with the place where it stands. -/
theorem Follows.get {next : Cursor → Attempt α} (h : (next start).Follows start P) :
    Follows (MonadState.get >>= next) start P := h

/-- `record` before an attempt puts its event before all others. -/
theorem Follows.record {event : Event} {next : Unit → Attempt α}
    (h : (next ()).Follows start fun outcome more => P outcome (event :: more)) :
    Follows (liftM (NeutronLang.record event) >>= next) start P := h

/-- `skip` before an attempt reads one token, whatever it is. -/
theorem Follows.skip {token : Token} {next : Unit → Attempt α} (hread : start.Reads [token] place)
    (h : (next ()).Follows place P) : Follows (Rule.skip >>= next) start P := by
  obtain ⟨behind, rest, rfl, rfl⟩ := hread.exists_eq
  exact h

/-- A reader before an attempt goes on after it, with its record before all others. -/
theorem Follows.reader {reader : Recovering β} {next : β → Attempt α}
    (h : (next (reader start).value.1).Follows (reader start).value.2 fun outcome more =>
      P outcome ((reader start).events ++ more)) :
    Follows (liftM reader >>= next) start P := h

/-- A reader may end an attempt, and gives its answer. -/
theorem Follows.lastReader {reader : Recovering β} {answer : β → α}
    (h : reader.Follows start fun x stop events => P (.ok (answer x, stop)) events) :
    Follows (liftM reader >>= fun x => Pure.pure (answer x)) start P := by
  refine .reader (.pure ?_)
  rw [List.append_nil]
  exact h

/-- `>>=` goes on where its first attempt succeeds, with the record of that before all others, and
else it fails. -/
theorem Follows.bind {attempt : Attempt β} {next : β → Attempt α}
    (h : attempt.Follows start fun outcome events =>
      match outcome with
      | .ok (x, place) => (next x).Follows place fun outcome more => P outcome (events ++ more)
      | .error failure => P (.error failure) events) :
    Follows (attempt >>= next) start P := by
  unfold Follows at h ⊢
  have hrun : ((attempt >>= next) start).run =
      (attempt start).run >>= ExceptT.bindCont fun (x, middle) => next x middle := rfl
  rw [hrun, Traced.bind_eq]
  generalize (attempt start).run = outcome at h
  obtain ⟨value, events⟩ := outcome
  cases value with
  | ok outcome => exact h
  | error failure =>
    dsimp only
    rw [← List.append_nil events] at h
    exact h

/-- An attempt may end with another one, which gives its answer. -/
theorem Follows.lastAttempt {attempt : Attempt β} {answer : β → α}
    (h : attempt.Follows start fun outcome events =>
      P (outcome.map fun (x, stop) => (answer x, stop)) events) :
    Follows (attempt >>= fun x => Pure.pure (answer x)) start P := by
  refine .bind ?_
  unfold Follows at h ⊢
  generalize (attempt start).run = outcome at h ⊢
  obtain ⟨value, events⟩ := outcome
  cases value with
  | ok outcome =>
    show P _ (events ++ [])
    rw [List.append_nil]
    exact h
  | error failure => exact h

/-- `acceptText` before an attempt goes on with the token or without it. -/
theorem Follows.acceptText {lexeme : String} {next : Option Token → Attempt α}
    (hnone : (∀ token ∈ start.ahead.head?, token.lexeme ≠ lexeme) → (next none).Follows start P)
    (hsome : ∀ token place, token.lexeme = lexeme → start.Reads [token] place →
      (next (some token)).Follows place P) :
    Follows (Rule.acceptText lexeme >>= next) start P :=
  Rule.acceptText_bind_of
    (fun outcome : ExceptT Failure Traced (α × Cursor) => P outcome.run.value outcome.run.events)
    hnone hsome

end Attempt

end NeutronLang
