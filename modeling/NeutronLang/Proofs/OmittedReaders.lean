import NeutronLang.Proofs.OmittedRules

/-!
# Readers with a semicolon left out

Statements are read with a record, and from it one can tell whether the token that is left out ended
a statement. Two readings of a statement, with the token and without it, are related in one of three
ways. Either the token was not looked at: then the records are the same but for the places
(`Omission.Records.spared`). Or it ended a statement inside: then the record without it has the
error that its semicolon is missing, in place of the event that it was there, and is the same before
and after (`Omission.Records.lacking`). Or it was read for something else, and nothing is said about
what is read without it (`Omission.Agrees.crossed`).

What holds these together is that a reader never records that the token it starts at ends a
statement (`Attempt.EndsLater`). So a reader that goes on after the token cannot be the one that it
ends.
-/

namespace NeutronLang

open Grammar

variable {α β γ δ : Type}

namespace Attempt

/-- `liftM` of a rule after another is an attempt after another. -/
theorem liftM_bind (rule : Rule α) (next : α → Rule β) :
    (liftM (rule >>= next) : Attempt β) = liftM rule >>= fun x => liftM (next x) := by
  funext start
  show (⟨rule start >>= fun outcome => next outcome.1 outcome.2, []⟩ : Traced _) =
    (⟨rule start, []⟩ : Traced _) >>= ExceptT.bindCont _
  cases rule start <;> rfl

end Attempt

/-! ## Ends of statements come later -/

/-- An attempt leads forward, and no statement that it reads is `terminated` by the token it starts
at. -/
structure Attempt.EndsLater (attempt : Attempt α) : Prop where
  reads : ∀ start : Cursor, ∃ read, start.Reads read (endOf (attempt start).run.value)
  later : ∀ (start : Cursor) after place, .terminated after place ∈ (attempt start).run.events →
    start.index < place

namespace Attempt

/-- `pure` ends nothing. -/
theorem endsLater_pure (x : α) : EndsLater (pure x) where
  reads start := ⟨[], .refl start⟩
  later := by rintro start after place ⟨⟩

/-- A rule ends nothing as an attempt. -/
theorem endsLater_rule {rule : Rule α} (h : rule.Advances) : EndsLater (liftM rule) where
  reads start := (h start).exists_reads
  later := by rintro start after place ⟨⟩

/-- `record` of an event other than `.terminated` ends nothing. -/
theorem endsLater_record {event : Event} (h : ∀ after place, event ≠ .terminated after place) :
    EndsLater (liftM (record event) : Attempt Unit) where
  reads start := ⟨[], .refl start⟩
  later _ after place hmem := absurd (List.mem_singleton.mp hmem).symm (h after place)

/-- `>>=` of attempts ends nothing by its first token if neither of the two does. -/
theorem EndsLater.bind {attempt : Attempt α} {next : α → Attempt β} (h : attempt.EndsLater)
    (hnext : ∀ x, (next x).EndsLater) : (attempt >>= next).EndsLater := by
  have hrun (start : Cursor) : ((attempt >>= next) start).run =
      (attempt start).run >>= ExceptT.bindCont fun outcome => next outcome.1 outcome.2 := rfl
  constructor
  · intro start
    obtain ⟨read, hread⟩ := h.reads start
    rw [hrun]
    generalize (attempt start).run = outcome at hread
    obtain ⟨value, events⟩ := outcome
    cases value with
    | ok outcome =>
      obtain ⟨more, hmore⟩ := (hnext outcome.1).reads outcome.2
      exact ⟨_, hread.trans hmore⟩
    | error failure => exact ⟨read, hread⟩
  · -- an end on record is that of the first attempt or, further on, that of the second
    intro start after place hmem
    obtain ⟨read, hread⟩ := h.reads start
    have hlater := h.later start after place
    rw [hrun] at hmem
    generalize (attempt start).run = outcome at hread hlater hmem
    obtain ⟨value, events⟩ := outcome
    rcases List.mem_append.mp hmem with hmem | hmem
    · exact hlater hmem
    · cases value with
      | ok outcome =>
        have hindex := Cursor.Reads.index_eq hread
        have hlater := (hnext outcome.1).later outcome.2 after place hmem
        replace hindex : outcome.2.index = _ := hindex
        omega
      | error failure => cases hmem

/-- `get` before attempts that end later ends later. -/
theorem endsLater_get {next : Cursor → Attempt α} (h : ∀ place, (next place).EndsLater) :
    EndsLater (MonadState.get >>= next) :=
  ⟨fun start => (h start).reads start, fun start => (h start).later start⟩

/-- `acceptText` before attempts that end later ends later. -/
theorem endsLater_acceptText {lexeme : String} {next : Option Token → Attempt α}
    (hnone : (next none).EndsLater) (hsome : ∀ token, (next (some token)).EndsLater) :
    EndsLater (Rule.acceptText lexeme >>= next) := by
  refine (endsLater_rule (Rule.advances_accept _)).bind fun token? => ?_
  cases token? with
  | none => exact hnone
  | some token => exact hsome token

end Attempt

/-! ## Two readings -/

namespace Omission

/-- What is recorded from `start` to `stop`, with the token and without it. -/
inductive Records (omission : Omission) (start stop : Cursor) :
    List Event → List Event → Prop where
  | spared {events : List Event} : (∀ after, .terminated after omission.place ∉ events) →
      Records omission start stop events (events.map (Event.without omission.place))
  | lacking {before later : List Event} {after : Clause} {offset : Int} :
      start.index < omission.place → omission.place < stop.index →
      (∃ token ∈ omission.tokens[omission.place]?, token.lexeme = ";") →
      (∀ other, .terminated other omission.place ∉ before ++ later) →
      Records omission start stop (before ++ .terminated after omission.place :: later)
        (before.map (Event.without omission.place) ++
          .unterminated (.missingSemicolon after offset (omission.lineEnd offset)) omission.place ::
            later.map (Event.without omission.place))

/-- The outcomes of an attempt, with the token and without it. Of the answers only their `view` is
the same. -/
inductive Results (omission : Omission) (view : α → β) :
    Except Failure (α × Cursor) → Except Failure (α × Cursor) → Prop where
  | ok {x x' : α} {stop : Cursor} : view x' = view x → stop.index ≠ omission.place →
      Results omission view (.ok (x, stop)) (.ok (x', stop.without omission.place))
  | error {failure : Failure} : failure.cursor.Clear omission.place →
      Results omission view (.error failure) (.error (failure.without omission.place))

/-- Two readings from `start`, with the token and without it. -/
inductive Agrees (omission : Omission) (view : α → β) (start : Cursor) :
    Traced (Except Failure (α × Cursor)) → Traced (Except Failure (α × Cursor)) → Prop where
  | kept {result result' : Except Failure (α × Cursor)} {events events' : List Event} :
      Results omission view result result' →
      Records omission start (endOf result) events events' →
      Agrees omission view start ⟨result, events⟩ ⟨result', events'⟩
  | crossed {outcome outcome' : Traced (Except Failure (α × Cursor))} :
      start.Crosses omission.place (endOf outcome.value) →
      (∀ after, .terminated after omission.place ∉ outcome.events) →
      Agrees omission view start outcome outcome'

end Omission

/-- Two attempts read the same from the places of the `domain`, the one with the token and the other
without it. -/
structure Attempt.Overlooks (omission : Omission) (domain : Cursor → Prop) (view : α → β)
    (attempt attempt' : Attempt α) : Prop where
  endsLater : attempt.EndsLater
  agrees : ∀ start : Cursor, start.tokens = omission.tokens → start.index ≠ omission.place →
    domain start → omission.Agrees view start (attempt start).run
      (attempt' (start.without omission.place)).run

/-- Two readers read the same from the places of the `domain`. -/
def Recovering.Overlooks (omission : Omission) (domain : Cursor → Prop) (view : α → β)
    (reader reader' : Recovering α) : Prop :=
  Attempt.Overlooks omission domain view (liftM reader) (liftM reader')

namespace Omission

variable {omission : Omission} {view : α → β} {start middle stop : Cursor} {read more : List Token}
  {events events' later later' : List Event}

/-- `Records` holds of two empty records. -/
theorem Records.nil : omission.Records start stop [] [] := .spared (by rintro after ⟨⟩)

/-- `Records` holds of records one after the other: at most one of them lacks the semicolon. -/
theorem Records.append (h : omission.Records start middle events events')
    (hfirst : start.index ≤ middle.index) (hlast : middle.index ≤ stop.index)
    (hlater : omission.Records middle stop later later') :
    omission.Records start stop (events ++ later) (events' ++ later') := by
  cases h with
  | spared h =>
    cases hlater with
    | spared hlater =>
      rw [← List.map_append]
      exact .spared fun after hmem => (List.mem_append.mp hmem).elim (h after) (hlater after)
    | lacking hstart hstop hsemicolon hothers =>
      rw [← List.append_assoc, ← List.append_assoc, ← List.map_append]
      refine .lacking (by omega) hstop hsemicolon fun other hmem => ?_
      rw [List.append_assoc] at hmem
      exact (List.mem_append.mp hmem).elim (h other) (hothers other)
  | lacking hstart hstop hsemicolon hothers =>
    cases hlater with
    | spared hlater =>
      rw [List.append_assoc, List.append_assoc, List.cons_append, List.cons_append,
        ← List.map_append]
      refine .lacking hstart (by omega) hsemicolon fun other hmem => ?_
      rw [← List.append_assoc] at hmem
      exact (List.mem_append.mp hmem).elim (hothers other) (hlater other)
    | lacking hstart' =>
      -- the place of the token left out is either before the middle or not
      exact absurd hstart' (by omega)

/-- `Records` up to a place before the token do not say that it ends a statement. -/
theorem Records.not_mem (h : omission.Records start stop events events')
    (hstop : stop.index ≤ omission.place) (after : Clause) :
    .terminated after omission.place ∉ events := by
  cases h with
  | spared h => exact h after
  | lacking _ hplace => exact absurd hplace (by omega)

/-- `Results` that are answers have the same view. -/
theorem Results.view_eq {outcome outcome' : α × Cursor}
    (h : omission.Results view (.ok outcome) (.ok outcome')) :
    view outcome'.1 = view outcome.1 := by
  cases h with
  | ok hview => exact hview

/-- `Agrees` does not depend on what is read and recorded before. -/
theorem Agrees.after {outcome outcome' : Traced (Except Failure (α × Cursor))}
    (hread : start.Reads read middle) (hmore : middle.Reads more (endOf outcome.value))
    (hevents : omission.Records start middle events events')
    (h : omission.Agrees view middle outcome outcome') :
    omission.Agrees view start ⟨outcome.value, events ++ outcome.events⟩
      ⟨outcome'.value, events' ++ outcome'.events⟩ := by
  cases h with
  | kept hresult hrecords =>
    have hindex := hread.index_eq
    have hindex' := hmore.index_eq
    exact .kept hresult (hevents.append (by omega) (by omega) hrecords)
  | crossed hcross hspared =>
    refine .crossed (hcross.of_reads hread) fun after hmem => ?_
    exact (List.mem_append.mp hmem).elim
      (hevents.not_mem (Nat.le_of_lt hcross.1) after) (hspared after)

/-- `Agrees` holds of a reading in which the token ends a statement, if it is the same without it
but for the missing semicolon. -/
theorem Agrees.of_mem {result result' : Except Failure (α × Cursor)} {after : Clause}
    (h : omission.Agrees view start ⟨result, events⟩ ⟨result', events'⟩)
    (hmem : .terminated after omission.place ∈ events) :
    omission.Results view result result' ∧
      (∃ token ∈ omission.tokens[omission.place]?, token.lexeme = ";") ∧
      ∃ offset before later, events = before ++ .terminated after omission.place :: later ∧
        events' = before.map (Event.without omission.place) ++
          .unterminated (.missingSemicolon after offset (omission.lineEnd offset)) omission.place ::
            later.map (Event.without omission.place) := by
  cases h with
  | kept hresult hrecords =>
    cases hrecords with
    | spared h => exact absurd hmem (h after)
    | @lacking before later found offset _ _ hsemicolon hothers =>
      obtain rfl : after = found := by
        by_contra hne
        refine hothers after ?_
        simpa [hne] using hmem
      exact ⟨hresult, hsemicolon, offset, before, later, rfl, rfl⟩
  | crossed _ hspared => exact absurd hmem (hspared after)

/-- `Agrees` holds of whatever goes on after the token has been crossed: nothing is said of it. -/
theorem Agrees.of_crossed {attempt : Attempt α} {outcome' : Traced (Except Failure (α × Cursor))}
    (events : List Event) (hlater : attempt.EndsLater)
    (hcross : start.Crosses omission.place middle)
    (hspared : ∀ after, .terminated after omission.place ∉ events) :
    omission.Agrees view start
      ⟨(attempt middle).run.value, events ++ (attempt middle).run.events⟩ outcome' := by
  obtain ⟨more, hmore⟩ := hlater.reads middle
  refine .crossed (hcross.reads hmore) fun after hmem => ?_
  rcases List.mem_append.mp hmem with hmem | hmem
  · exact hspared after hmem
  · exact absurd (hlater.later middle after _ hmem) (Nat.not_lt_of_le hcross.2)

/-- The event that an attempt is given up. -/
def giveUp (start : Cursor) (failure : Failure) : Event :=
  .abandoned failure.error start.index failure.cursor.index (start.resumeAfter failure).index

/-- `Records` hold of an attempt that fails with the token and without it, and is given up. -/
theorem Records.giveUp {failure : Failure} {view : Option α → β}
    (h : omission.Records start failure.cursor events events')
    (haside : start.index ≠ omission.place) (hread : start.Reads read failure.cursor)
    (hclear : failure.cursor.Clear omission.place) :
    omission.Agrees view start
      ⟨.ok (none, start.resumeAfter failure), events ++ [Omission.giveUp start failure]⟩
      ⟨.ok (none, (start.without omission.place).resumeAfter (failure.without omission.place)),
        events' ++ [Omission.giveUp (start.without omission.place)
          (failure.without omission.place)]⟩ := by
  have hindex := hread.index_eq
  by_cases hcross : failure.cursor.Crosses omission.place (start.resumeAfter failure)
  · -- the token was not yet come to when the attempt failed, and then it is skipped
    refine .crossed (hcross.of_reads hread) fun after hmem => ?_
    exact h.not_mem (Nat.le_of_lt hcross.1) after
      ((List.mem_append.mp hmem).resolve_right (by simp [Omission.giveUp]))
  have hle := Cursor.index_le_resumeAfter hread
  have haside' := hclear.aside
  have hresume : (start.resumeAfter failure).index ≠ omission.place := fun heq =>
    hcross ⟨by omega, Nat.le_of_eq heq.symm⟩
  have hsame := (Cursor.resumeAfter_without haside haside' hread).resolve_left hcross
  have hfailed : (failure.without omission.place).cursor.index =
      indexWithout omission.place failure.cursor.index := Cursor.index_without ..
  have hnote : Omission.giveUp (start.without omission.place) (failure.without omission.place) =
      (Omission.giveUp start failure).without omission.place := by
    rw [Omission.giveUp, hsame, Failure.error_without hclear, hfailed, Cursor.index_without,
      Cursor.index_without]
    rfl
  have hrecorded : omission.Records failure.cursor (start.resumeAfter failure)
      [Omission.giveUp start failure] [(Omission.giveUp start failure).without omission.place] :=
    .spared (by simp [Omission.giveUp])
  rw [hsame, hnote]
  exact .kept (.ok rfl hresume) (h.append (by omega) hle hrecorded)

end Omission

/-! ## Attempts -/

namespace Attempt

variable {omission : Omission} {domain : Cursor → Prop} {view : α → β} {view' : γ → δ}

/-- `Overlooks` from some places holds from fewer. -/
theorem Overlooks.mono {attempt attempt' : Attempt α} {other : Cursor → Prop}
    (h : Overlooks omission domain view attempt attempt')
    (hle : ∀ start, other start → domain start) :
    Overlooks omission other view attempt attempt' where
  endsLater := h.endsLater
  agrees start htokens haside hother := h.agrees start htokens haside (hle start hother)

/-- `>>=` overlooks the omission if both of its attempts do. -/
theorem Overlooks.bind {attempt attempt' : Attempt α} {next next' : α → Attempt γ}
    (h : Overlooks omission domain view attempt attempt')
    (hnext : ∀ x x', view x' = view x →
      Overlooks omission (fun _ => True) view' (next x) (next' x')) :
    Overlooks omission domain view' (attempt >>= next) (attempt' >>= next') where
  endsLater := h.endsLater.bind fun x => (hnext x x rfl).endsLater
  agrees start htokens haside hfrom := by
    have hagrees := h.agrees start htokens haside hfrom
    obtain ⟨read, hread⟩ := h.endsLater.reads start
    show omission.Agrees view' start
      ((attempt start).run >>= ExceptT.bindCont fun outcome => next outcome.1 outcome.2)
      ((attempt' (start.without omission.place)).run >>=
        ExceptT.bindCont fun outcome => next' outcome.1 outcome.2)
    generalize (attempt start).run = outcome at hagrees hread ⊢
    generalize (attempt' (start.without omission.place)).run = outcome' at hagrees ⊢
    -- once the token is crossed nothing is left to compare, whatever follows
    cases hagrees with
    | @kept result result' events events' hresult hrecords =>
      cases hresult with
      | @ok x x' middle hview haside =>
        have hrest := hnext x x' hview
        obtain ⟨more, hmore⟩ := hrest.endsLater.reads middle
        exact .after hread hmore hrecords
          (hrest.agrees middle (hread.tokens_eq.trans htokens) haside trivial)
      | error hclear =>
        rw [Traced.bind_eq, Traced.bind_eq]
        show omission.Agrees view' start ⟨.error _, events ++ []⟩ ⟨.error _, events' ++ []⟩
        rw [List.append_nil, List.append_nil]
        exact .kept (.error hclear) hrecords
    | crossed hcross hspared =>
      obtain ⟨value, events⟩ := outcome
      cases value with
      | ok outcome => exact .of_crossed _ (hnext outcome.1 _ rfl).endsLater hcross hspared
      | error failure =>
        refine .crossed hcross fun after hmem => ?_
        exact hspared after ((List.mem_append.mp hmem).resolve_right (by rintro ⟨⟩))

/-- A rule before an attempt overlooks the omission if both do. -/
theorem Overlooks.rule {rule : Rule α} {next next' : α → Attempt γ}
    (h : rule.Overlooks omission)
    (hnext : ∀ x, Overlooks omission (Cursor.Clear omission.place) view' (next x) (next' x)) :
    Overlooks omission (Cursor.Clear omission.place) view' (liftM rule >>= next)
      (liftM rule >>= next') where
  endsLater := (endsLater_rule h.advances).bind fun x => (hnext x).endsLater
  agrees start htokens haside hclear := by
    have hreaches := h.advances start
    have hsame := h.same start htokens hclear
    show omission.Agrees view' start
      ((⟨rule start, []⟩ : Traced _) >>= ExceptT.bindCont fun outcome => next outcome.1 outcome.2)
      ((⟨rule (start.without omission.place), []⟩ : Traced _) >>=
        ExceptT.bindCont fun outcome => next' outcome.1 outcome.2)
    generalize rule start = outcome at hreaches hsame ⊢
    cases hreaches with
    | error hread =>
      -- a rule that crosses the token settles the matter before anything is recorded
      rcases hsame with hcross | hsame
      · exact .crossed hcross (by rintro after ⟨⟩)
      rcases hclear.of_reads hread with hcross | hclear
      · exact .crossed hcross (by rintro after ⟨⟩)
      rw [hsame]
      exact .kept (.error hclear) .nil
    | @ok read x middle hread =>
      rcases hsame with hcross | hsame
      · exact .of_crossed [] (hnext x).endsLater hcross (by rintro after ⟨⟩)
      rcases hclear.of_reads hread with hcross | hclear
      · exact .of_crossed [] (hnext x).endsLater hcross (by rintro after ⟨⟩)
      obtain ⟨more, hmore⟩ := (hnext x).endsLater.reads middle
      rw [hsame]
      exact .after hread hmore .nil
        ((hnext x).agrees middle (hread.tokens_eq.trans htokens) hclear.aside hclear)

/-- `pure` overlooks the omission for answers that look the same. -/
theorem Overlooks.pure {x x' : α} (h : view x' = view x) :
    Overlooks omission domain view (Pure.pure x) (Pure.pure x') where
  endsLater := endsLater_pure x
  agrees _ _ haside _ := .kept (.ok h haside) .nil

/-- `get` overlooks the omission if what is done with the place does. -/
theorem Overlooks.get {next next' : Cursor → Attempt α} (hlater : ∀ place, (next place).EndsLater)
    (h : ∀ start : Cursor, start.tokens = omission.tokens → start.index ≠ omission.place →
      domain start → omission.Agrees view start (next start start).run
        (next' (start.without omission.place) (start.without omission.place)).run) :
    Overlooks omission domain view (MonadState.get >>= next) (MonadState.get >>= next') where
  endsLater := endsLater_get hlater
  agrees := h

/-- `record` overlooks the omission at the places that correspond. -/
theorem Overlooks.record {event event' : Event} {next next' : Unit → Attempt α}
    (hevent : event' = event.without omission.place)
    (hother : ∀ after place, event ≠ .terminated after place)
    (h : Overlooks omission domain view (next ()) (next' ())) :
    Overlooks omission domain view (liftM (NeutronLang.record event) >>= next)
      (liftM (NeutronLang.record event') >>= next') where
  endsLater := (endsLater_record hother).bind fun _ => h.endsLater
  agrees start htokens haside hfrom := by
    subst hevent
    obtain ⟨read, hread⟩ := h.endsLater.reads start
    have hspared : ∀ after, Event.terminated after omission.place ∉ [event] := fun after hmem =>
      hother _ _ (List.mem_singleton.mp hmem).symm
    exact .after (.refl start) hread (.spared hspared) (h.agrees start htokens haside hfrom)

/-- `acceptText` overlooks the omission if what follows it does, with the text and without it. -/
theorem Overlooks.acceptText {lexeme : String} {next next' : Option Token → Attempt α}
    (hnone : Overlooks omission domain view (next none) (next' none))
    (hsome : ∀ token,
      Overlooks omission (Cursor.Clear omission.place) view (next (some token))
        (next' (some token))) :
    Overlooks omission domain view (Rule.acceptText lexeme >>= next)
      (Rule.acceptText lexeme >>= next') where
  endsLater := endsLater_acceptText hnone.endsLater fun token => (hsome token).endsLater
  agrees start htokens haside hfrom := by
    show omission.Agrees view start
      (next (start.accept (·.lexeme == lexeme)).1 (start.accept (·.lexeme == lexeme)).2).run
      (next' ((start.without omission.place).accept (·.lexeme == lexeme)).1
        ((start.without omission.place).accept (·.lexeme == lexeme)).2).run
    rw [Cursor.accept_without haside]
    rcases start.accept_text_cases lexeme with ⟨token, middle, -, hread, h⟩ | ⟨-, h⟩
    · rw [h]
      show omission.Agrees view start (next (some token) middle).run
        (next' (some token) (middle.without omission.place)).run
      have hindex := hread.index_eq
      rw [List.length_singleton] at hindex
      by_cases hmiddle : middle.index = omission.place
      · -- the text is that of the token before the one left out
        exact .of_crossed [] (hsome token).endsLater ⟨by omega, by omega⟩ (by rintro after ⟨⟩)
      · have hclear : middle.Clear omission.place :=
          ⟨hmiddle, fun hnext => absurd hnext (by omega)⟩
        obtain ⟨more, hmore⟩ := (hsome token).endsLater.reads middle
        exact .after hread hmore .nil
          ((hsome token).agrees middle (hread.tokens_eq.trans htokens) hmiddle hclear)
    · rw [h]
      exact hnone.agrees start htokens haside hfrom

/-! ## Recovery -/

/-- `recover` ends nothing by the token that it starts at if its attempt does not. -/
theorem EndsLater.recover {attempt : Attempt (Option α)} (h : attempt.EndsLater) :
    EndsLater (liftM attempt.recover) := by
  have hrun (start : Cursor) : ((liftM attempt.recover : Attempt (Option α)) start).run =
      ⟨.ok (attempt.recover start).value, (attempt.recover start).events⟩ := rfl
  constructor
  · intro start
    obtain ⟨read, hread⟩ := h.reads start
    rw [hrun, Attempt.recover]
    generalize (attempt start).run = outcome at hread
    obtain ⟨value, events⟩ := outcome
    cases value with
    | ok outcome => exact ⟨read, hread⟩
    | error failure =>
      obtain ⟨more, hmore, -⟩ := exists_reads_resumeAfter hread
      exact ⟨more, hmore⟩
  · intro start after place hmem
    have hlater := h.later start after place
    rw [hrun, Attempt.recover] at hmem
    generalize (attempt start).run = outcome at hlater hmem
    obtain ⟨value, events⟩ := outcome
    cases value with
    | ok outcome => exact hlater hmem
    | error failure => exact hlater ((List.mem_append.mp hmem).resolve_right (by simp))

/-- `recover` overlooks the omission if its attempt does. -/
theorem Overlooks.recover {attempt attempt' : Attempt (Option α)} {view : Option α → β}
    (h : Overlooks omission domain view attempt attempt') :
    Recovering.Overlooks omission domain view attempt.recover attempt'.recover where
  endsLater := h.endsLater.recover
  agrees start htokens haside hdomain := by
    have hagrees := h.agrees start htokens haside hdomain
    obtain ⟨read, hread⟩ := h.endsLater.reads start
    show omission.Agrees view start
      ⟨.ok (attempt.recover start).value, (attempt.recover start).events⟩
      ⟨.ok (attempt'.recover (start.without omission.place)).value,
        (attempt'.recover (start.without omission.place)).events⟩
    unfold Attempt.recover
    generalize (attempt start).run = outcome at hagrees hread ⊢
    generalize (attempt' (start.without omission.place)).run = outcome' at hagrees ⊢
    cases hagrees with
    | @kept result result' events events' hresult hrecords =>
      cases hresult with
      | ok hview haside => exact .kept (.ok hview haside) hrecords
      | error hclear => exact hrecords.giveUp haside hread hclear
    | crossed hcross hspared =>
      obtain ⟨value, events⟩ := outcome
      cases value with
      | ok outcome => exact .crossed hcross hspared
      | error failure =>
        -- recovery only goes further on, so what was crossed stays crossed
        refine .crossed ⟨hcross.1, Nat.le_trans hcross.2 (Cursor.index_le_resumeAfter hread)⟩
          fun after hmem => ?_
        exact hspared after ((List.mem_append.mp hmem).resolve_right (by simp))

end Attempt

/-! ## Readers that never fail -/

namespace Recovering

variable {omission : Omission} {domain : Cursor → Prop} {view : α → β} {view' : γ → δ}

/-- `get` hands the place on to what follows it. -/
theorem run_get_bind (next : Cursor → Recovering α) (start : Cursor) :
    (get >>= next) start = next start start := rfl

/-- No statement that a reader reads is `terminated` by the token it starts at. -/
def EndsLater (reader : Recovering α) : Prop := Attempt.EndsLater (liftM reader)

/-- `>>=` of readers ends nothing by its first token if neither of the two does. -/
theorem EndsLater.bind {reader : Recovering α} {next : α → Recovering β} (h : reader.EndsLater)
    (hnext : ∀ x, (next x).EndsLater) : EndsLater (reader >>= next) :=
  Attempt.EndsLater.bind h hnext

/-- `pure` ends nothing as a reader. -/
theorem endsLater_pure (x : α) : EndsLater (pure x) := Attempt.endsLater_pure x

/-- `record` of an event other than `.terminated` ends nothing as a reader. -/
theorem endsLater_record {event : Event} (h : ∀ after place, event ≠ .terminated after place) :
    EndsLater (record event) := Attempt.endsLater_record h

/-- `get` before readers that end later ends later. -/
theorem endsLater_get {next : Cursor → Recovering α} (h : ∀ place, (next place).EndsLater) :
    EndsLater (get >>= next) :=
  ⟨fun start => (h start).reads start, fun start => (h start).later start⟩

/-- `acceptText` before readers that end later ends later. -/
theorem endsLater_acceptText {lexeme : String} {next : Option Token → Recovering α}
    (hnone : (next none).EndsLater) (hsome : ∀ token, (next (some token)).EndsLater) :
    EndsLater (Rule.acceptText lexeme >>= next) := by
  show Attempt.EndsLater (Rule.acceptText lexeme >>= fun token? => liftM (next token?))
  exact Attempt.endsLater_acceptText hnone hsome

/-- A reader that overlooks the omission ends nothing by the token it starts at. -/
theorem Overlooks.endsLater {reader reader' : Recovering α}
    (h : Overlooks omission domain view reader reader') : reader.EndsLater :=
  Attempt.Overlooks.endsLater h

/-- `>>=` overlooks the omission if both of its readers do. -/
theorem Overlooks.bind {reader reader' : Recovering α} {next next' : α → Recovering γ}
    (h : Overlooks omission domain view reader reader')
    (hnext : ∀ x x', view x' = view x →
      Overlooks omission (fun _ => True) view' (next x) (next' x')) :
    Overlooks omission domain view' (reader >>= next) (reader' >>= next') :=
  Attempt.Overlooks.bind h hnext

/-- `pure` overlooks the omission as a reader for answers that look the same. -/
theorem Overlooks.pure {x x' : α} (h : view x' = view x) :
    Overlooks omission domain view (Pure.pure x) (Pure.pure x') := Attempt.Overlooks.pure h

/-- `get` overlooks the omission if what a reader does with the place is known to be the same. -/
theorem Overlooks.get {next next' : Cursor → Recovering α}
    (hlater : ∀ place, (next place).EndsLater)
    (h : ∀ start : Cursor, start.tokens = omission.tokens → start.index ≠ omission.place →
      domain start → Overlooks omission domain view (next start)
        (next' (start.without omission.place))) :
    Overlooks omission domain view (MonadState.get >>= next) (MonadState.get >>= next') where
  endsLater := endsLater_get hlater
  agrees start htokens haside hdomain :=
    (h start htokens haside hdomain).agrees start htokens haside hdomain

/-- `get` overlooks the omission whatever the place, if the other reader does with the place that
corresponds what this one does with the place. -/
theorem Overlooks.getAny {next next' : Cursor → Recovering α}
    (h : ∀ place : Cursor,
      Overlooks omission domain view (next place) (next' (place.without omission.place))) :
    Overlooks omission domain view (MonadState.get >>= next) (MonadState.get >>= next') :=
  .get (fun place => (h place).endsLater) fun start _ _ _ => h start

/-- `record` overlooks the omission as a reader at the places that correspond. -/
theorem Overlooks.record {event event' : Event} {next next' : Unit → Recovering α}
    (hevent : event' = event.without omission.place)
    (hother : ∀ after place, event ≠ .terminated after place)
    (h : Overlooks omission domain view (next ()) (next' ())) :
    Overlooks omission domain view (NeutronLang.record event >>= next)
      (NeutronLang.record event' >>= next') := by
  show Attempt.Overlooks omission domain view
    (liftM (NeutronLang.record event) >>= fun _ => liftM (next ()))
    (liftM (NeutronLang.record event') >>= fun _ => liftM (next' ()))
  exact Attempt.Overlooks.record hevent hother h

/-- `acceptText` overlooks the omission if the readers after it do, with the text and without it. -/
theorem Overlooks.acceptText {lexeme : String} {next next' : Option Token → Recovering α}
    (hnone : Overlooks omission domain view (next none) (next' none))
    (hsome : ∀ token, Overlooks omission (Cursor.Clear omission.place) view (next (some token))
      (next' (some token))) :
    Overlooks omission domain view (Rule.acceptText lexeme >>= next)
      (Rule.acceptText lexeme >>= next') := by
  show Attempt.Overlooks omission domain view
    (Rule.acceptText lexeme >>= fun token? => liftM (next token?))
    (Rule.acceptText lexeme >>= fun token? => liftM (next' token?))
  exact Attempt.Overlooks.acceptText hnone hsome

end Recovering

end NeutronLang
