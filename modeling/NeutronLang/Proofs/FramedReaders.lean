import NeutronLang.Proofs.FramedRules

/-!
# Readers with a record inside a frame

What `Rule.Framed` says of rules is said here of readers that record events: they record the
counterparts of the events that they record outside. Again nothing is said where the document ends
too early. This is now known from the record, which shows an error at the end or an open body, or,
as long as an attempt is not given up, from its failure.
-/

namespace NeutronLang

variable {α β : Type} {frame : Frame} {start middle stop : Cursor} {read : List Token}

/-- What a `Recovering` reader gives outside a frame and what one gives inside, both from the same
place. -/
inductive Recovering.Agrees (frame : Frame) (R : List Token → α → α → Prop) (start : Cursor) :
    Traced (α × Cursor) → Traced (α × Cursor) → Prop where
  | kept {read : List Token} {stop : Cursor} {x x' : α} {events : List Event} :
      start.Reads read stop → R read x x' →
      Agrees frame R start ⟨(x, stop), events⟩ ⟨(x', frame.cursor stop), events.map frame.event⟩
  | cut {outcome outcome' : Traced (α × Cursor)} {event : Event} :
      frame.ahead ≠ [] → event ∈ outcome.events → event.isCut = true →
      Agrees frame R start outcome outcome'

/-- What an `Attempt` gives outside a frame and what one gives inside, both from the same place. -/
inductive Attempt.Agrees (frame : Frame) (R : List Token → α → α → Prop) (start : Cursor) :
    Traced (Except Failure (α × Cursor)) → Traced (Except Failure (α × Cursor)) → Prop where
  | kept {result result' : Except Failure (α × Cursor)} {events : List Event} :
      frame.Outcome R start result result' →
      Agrees frame R start ⟨result, events⟩ ⟨result', events.map frame.event⟩
  | cut {outcome outcome' : Traced (Except Failure (α × Cursor))} {event : Event} :
      frame.ahead ≠ [] → event ∈ outcome.events → event.isCut = true →
      Agrees frame R start outcome outcome'
  | failed {failure : Failure} {events : List Event}
      {outcome' : Traced (Except Failure (α × Cursor))} :
      frame.ahead ≠ [] → failure.fault.code = "P010" →
      Agrees frame R start ⟨.error failure, events⟩ outcome'

/-- From `start`, `reader` does outside the frame what `reader'` does inside. -/
def Recovering.Framed (frame : Frame) (R : List Token → α → α → Prop) (start : Cursor)
    (reader reader' : Recovering α) : Prop :=
  Agrees frame R start (reader start) (reader' (frame.cursor start))

/-- From `start`, `attempt` does outside the frame what `attempt'` does inside. -/
def Attempt.Framed (frame : Frame) (R : List Token → α → α → Prop) (start : Cursor)
    (attempt attempt' : Attempt α) : Prop :=
  Agrees frame R start (attempt start).run (attempt' (frame.cursor start)).run

/-! ## Readers that never fail -/

namespace Recovering

variable {R : List Token → α → α → Prop} {T : List Token → β → β → Prop}

/-- `Agrees` does not depend on what is recorded and read before. -/
theorem Agrees.after {outcome outcome' : Traced (α × Cursor)} (events : List Event)
    (hread : start.Reads read middle)
    (h : Agrees frame (fun more => R (read ++ more)) middle outcome outcome') :
    Agrees frame R start ⟨outcome.value, events ++ outcome.events⟩
      ⟨outcome'.value, events.map frame.event ++ outcome'.events⟩ := by
  cases h with
  | kept hmore hanswer =>
    rw [← List.map_append]
    exact .kept (hread.trans hmore) hanswer
  | cut hahead hmem hcut => exact .cut hahead (List.mem_append_right _ hmem) hcut

/-- `>>=` is framed if both of its readers are. -/
theorem Framed.bind {reader reader' : Recovering α} {next next' : α → Recovering β}
    (hfits : frame.Fits start) (h : Framed frame R start reader reader')
    (hnext : ∀ read x x' middle, start.Reads read middle → frame.Fits middle → R read x x' →
      Framed frame (fun more => T (read ++ more)) middle (next x) (next' x')) :
    Framed frame T start (reader >>= next) (reader' >>= next') := by
  unfold Framed at h ⊢
  show Agrees frame T start (reader start >>= fun (x, middle) => next x middle)
    (reader' (frame.cursor start) >>= fun (x, middle) => next' x middle)
  generalize reader start = outcome at h
  generalize reader' (frame.cursor start) = outcome' at h
  cases h with
  | kept hread hanswer =>
    exact .after _ hread (hnext _ _ _ _ hread (hfits.of_reads hread) hanswer)
  | cut hahead hmem hcut => exact .cut hahead (List.mem_append_left _ hmem) hcut

/-- `pure` is framed as a reader if its answers belong together. -/
theorem Framed.pure {x x' : α} (h : R [] x x') :
    Framed frame R start (Pure.pure x) (Pure.pure x') := .kept (.refl start) h

/-- `get` is framed if what a reader does with the place is. -/
theorem Framed.get {next next' : Cursor → Recovering α}
    (h : Framed frame R start (next start) (next' (frame.cursor start))) :
    Framed frame R start (MonadState.get >>= next) (MonadState.get >>= next') := h

/-- `record` before a reader is framed. -/
theorem Framed.record {event : Event} {next next' : Unit → Recovering α}
    (h : Framed frame R start (next ()) (next' ())) :
    Framed frame R start (NeutronLang.record event >>= next)
      (NeutronLang.record (frame.event event) >>= next') :=
  Agrees.after [event] (.refl start) h

/-- `acceptText` before a reader is framed, if no statement starts with the text or the document is
not at its end. -/
theorem Framed.acceptText {lexeme : String} {next next' : Option Token → Recovering α}
    (h : opensStatement lexeme = false ∨ frame.Inside start) (hfits : frame.Fits start)
    (hnone : Framed frame R start (next none) (next' none))
    (hsome : ∀ token middle, start.Reads [token] middle → frame.Fits middle →
      token.lexeme = lexeme → Framed frame (fun more => R (token :: more)) middle
        (next (some token)) (next' (some (frame.token token)))) :
    Framed frame R start (Rule.acceptText lexeme >>= next) (Rule.acceptText lexeme >>= next') :=
  frame.related_acceptText h hnone fun token middle hread htext =>
    Agrees.after [] hread (hsome token middle hread (hfits.of_reads hread) htext)

end Recovering

/-! ## Attempts -/

namespace Attempt

variable {R : List Token → α → α → Prop} {T : List Token → β → β → Prop}

/-- `Agrees` of attempts does not depend on what is recorded and read before. -/
theorem Agrees.after {outcome outcome' : Traced (Except Failure (α × Cursor))}
    (events : List Event) (hread : start.Reads read middle)
    (h : Agrees frame (fun more => R (read ++ more)) middle outcome outcome') :
    Agrees frame R start ⟨outcome.value, events ++ outcome.events⟩
      ⟨outcome'.value, events.map frame.event ++ outcome'.events⟩ := by
  cases h with
  | kept hresult =>
    rw [← List.map_append]
    exact .kept (.after hread hresult)
  | cut hahead hmem hcut => exact .cut hahead (List.mem_append_right _ hmem) hcut
  | failed hahead hcode => exact .failed hahead hcode

/-- `>>=` is framed if both of its attempts are. -/
theorem Framed.bind {attempt attempt' : Attempt α} {next next' : α → Attempt β}
    (hfits : frame.Fits start) (h : Framed frame R start attempt attempt')
    (hnext : ∀ read x x' middle, start.Reads read middle → frame.Fits middle → R read x x' →
      Framed frame (fun more => T (read ++ more)) middle (next x) (next' x')) :
    Framed frame T start (attempt >>= next) (attempt' >>= next') := by
  unfold Framed at h ⊢
  show Agrees frame T start
    ((attempt start).run >>= ExceptT.bindCont (fun (x, middle) => next x middle))
    ((attempt' (frame.cursor start)).run >>= ExceptT.bindCont (fun (x, middle) => next' x middle))
  generalize (attempt start).run = outcome at h
  generalize (attempt' (frame.cursor start)).run = outcome' at h
  cases h with
  | kept hresult =>
    cases hresult with
    | ok hread hanswer =>
      exact .after _ hread (hnext _ _ _ _ hread (hfits.of_reads hread) hanswer)
    -- What fails outside fails inside, and nothing is done after it.
    | error hread hinside => exact Agrees.after _ (.refl start) (.kept (.error hread hinside))
    | cut hahead hcode => exact .failed hahead hcode
  | cut hahead hmem hcut => exact .cut hahead (List.mem_append_left _ hmem) hcut
  | failed hahead hcode => exact .failed hahead hcode

/-- `pure` is framed as an attempt if its answers belong together. -/
theorem Framed.pure {x x' : α} (h : R [] x x') :
    Framed frame R start (Pure.pure x) (Pure.pure x') := .kept (.ok (.refl start) h)

/-- `get` is framed if what an attempt does with the place is. -/
theorem Framed.get {next next' : Cursor → Attempt α}
    (h : Framed frame R start (next start) (next' (frame.cursor start))) :
    Framed frame R start (MonadState.get >>= next) (MonadState.get >>= next') := by
  unfold Framed
  exact h

/-- `record` before an attempt is framed. -/
theorem Framed.record {event : Event} {next next' : Unit → Attempt α}
    (h : Framed frame R start (next ()) (next' ())) :
    Framed frame R start (liftM (NeutronLang.record event) >>= next)
      (liftM (NeutronLang.record (frame.event event)) >>= next') :=
  Agrees.after [event] (.refl start) h

/-- `skip` before an attempt is framed, whatever the token. -/
theorem Framed.skip {token : Token} {next next' : Unit → Attempt α}
    (hread : start.Reads [token] middle)
    (h : Framed frame (fun more => R (token :: more)) middle (next ()) (next' ())) :
    Framed frame R start (Rule.skip >>= next) (Rule.skip >>= next') := by
  obtain ⟨behind, rest, rfl, rfl⟩ := hread.exists_eq
  exact Agrees.after [] hread h

/-- `acceptText` before an attempt is framed, if no statement starts with the text or the document
is not at its end. -/
theorem Framed.acceptText {lexeme : String} {next next' : Option Token → Attempt α}
    (h : opensStatement lexeme = false ∨ frame.Inside start) (hfits : frame.Fits start)
    (hnone : Framed frame R start (next none) (next' none))
    (hsome : ∀ token middle, start.Reads [token] middle → frame.Fits middle →
      token.lexeme = lexeme → Framed frame (fun more => R (token :: more)) middle
        (next (some token)) (next' (some (frame.token token)))) :
    Framed frame R start (Rule.acceptText lexeme >>= next) (Rule.acceptText lexeme >>= next') :=
  frame.related_acceptText h hnone fun token middle hread htext =>
    Agrees.after [] hread (hsome token middle hread (hfits.of_reads hread) htext)

/-- `Framed` stays true when less is said of the answers of attempts. -/
theorem Framed.mono {S : List Token → α → α → Prop} {attempt attempt' : Attempt α}
    (h : Framed frame R start attempt attempt') (hle : ∀ read x x', R read x x' → S read x x') :
    Framed frame S start attempt attempt' := by
  unfold Framed at h ⊢
  generalize (attempt start).run = outcome at h ⊢
  generalize (attempt' (frame.cursor start)).run = outcome' at h ⊢
  cases h with
  | kept hresult => exact .kept (hresult.mono hle)
  | cut hahead hmem hcut => exact .cut hahead hmem hcut
  | failed hahead hcode => exact .failed hahead hcode

/-- `acceptText` goes on without a token where another text is next. -/
theorem acceptText_bind_of_ne {lexeme : String} {next : Option Token → Attempt α}
    (h : ∀ token ∈ start.ahead.head?, token.lexeme ≠ lexeme) :
    (Rule.acceptText lexeme >>= next) start = next none start := by
  have hnone : start.accept (·.lexeme == lexeme) = (none, start) :=
    Cursor.accept_of_not_wanted fun token htoken => beq_eq_false_iff_ne.mpr (h token htoken)
  rw [Rule.acceptText, Rule.run_accept_bind, hnone]

/-- A rule is framed as an attempt if it is by itself. -/
theorem framed_of_rule {rule rule' : Rule α} (h : Rule.Framed frame R start rule rule') :
    Framed frame R start (liftM rule) (liftM rule') := Agrees.kept h

/-- A reader is framed as an attempt if it is by itself. -/
theorem framed_of_reader {reader reader' : Recovering α}
    (h : Recovering.Framed frame R start reader reader') :
    Framed frame R start (liftM reader) (liftM reader') := by
  unfold Recovering.Framed at h
  show Agrees frame R start ⟨.ok (reader start).value, (reader start).events⟩
    ⟨.ok (reader' (frame.cursor start)).value, (reader' (frame.cursor start)).events⟩
  generalize reader start = outcome at h
  generalize reader' (frame.cursor start) = outcome' at h
  cases h with
  | kept hread hanswer => exact .kept (.ok hread hanswer)
  | cut hahead hmem hcut => exact .cut hahead hmem hcut

/-! ## Recovery -/

/-- `boundaryFrom` reads on to the place where it stops. -/
theorem exists_reads_boundaryFrom (behind ahead : List Token) :
    ∃ read, Cursor.Reads ⟨behind, ahead⟩ read (Cursor.boundaryFrom behind ahead) := by
  fun_induction Cursor.boundaryFrom behind ahead with
  | case1 behind => exact ⟨[], .refl _⟩
  | case2 behind token ahead => exact ⟨[token], rfl, rfl⟩
  | case3 behind token ahead => exact ⟨[], .refl _⟩
  | case4 behind token ahead hsemicolon hboundary ih =>
    obtain ⟨read, hread⟩ := ih
    have hfirst : Cursor.Reads ⟨behind, token :: ahead⟩ [token] ⟨token :: behind, ahead⟩ :=
      ⟨rfl, rfl⟩
    exact ⟨token :: read, hfirst.cons hread⟩

/-- `resumeAfter` lies behind at least one token, unless the attempt began at the end. -/
theorem exists_reads_resumeAfter {failure : Failure} (hread : start.Reads read failure.cursor) :
    ∃ more, start.Reads more (start.resumeAfter failure) ∧ (start.ahead ≠ [] → more ≠ []) := by
  obtain ⟨synced, hsynced⟩ :=
    exists_reads_boundaryFrom failure.cursor.behind failure.cursor.ahead
  -- The search for a boundary goes on where the attempt failed.
  have hresume : start.Reads (read ++ synced) failure.cursor.synchronize := hread.trans hsynced
  unfold Cursor.resumeAfter
  dsimp only
  split
  · obtain ⟨behind, ahead⟩ := start
    cases ahead with
    | nil => exact ⟨[], .refl _, by simp⟩
    | cons token ahead => exact ⟨[token], ⟨rfl, rfl⟩, by simp⟩
  · next hindex =>
    refine ⟨read ++ synced, hresume, fun _ hnil => ?_⟩
    rw [hnil] at hresume
    rw [hresume.eq_of_nil] at hindex
    exact hindex (Nat.le_refl _)

/-- The answers are a statement, if there is one, and its counterpart (`Frame.node`); at least one
token is read, unless there is none. -/
def IsStatement (frame : Frame) (start : Cursor) (read : List Token)
    (answer answer' : Option Node) : Prop :=
  answer' = answer.map frame.node ∧ (start.ahead ≠ [] → read ≠ [])

/-- `isCut` holds of an attempt that is given up at the end of the document. -/
theorem isCut_abandoned {failure : Failure} (hcode : failure.fault.code = "P010")
    (start failed resume : Nat) :
    (Event.abandoned failure.error start failed resume).isCut = true := by
  show (failure.fault.code == "P010") = true
  rw [hcode]
  rfl

/-- The event that an attempt is given up is the same inside the frame as outside, if the document
does not end. -/
theorem event_abandoned {failure : Failure} (hfits : frame.Fits failure.cursor)
    (hinside : frame.Inside failure.cursor) (start resume : Cursor) :
    frame.event (.abandoned failure.error start.index failure.cursor.index resume.index) =
      .abandoned (frame.failure failure).error (frame.cursor start).index
        (frame.failure failure).cursor.index (frame.cursor resume).index := by
  have hfailed : (frame.failure failure).cursor.index =
      failure.cursor.index + frame.behind.length := frame.index_cursor failure.cursor
  rw [Frame.error_failure hfits hinside, frame.index_cursor, hfailed, frame.index_cursor]
  rfl

/-- `recover` is framed if its attempt is. -/
theorem Framed.recover {attempt attempt' : Attempt (Option Node)} (hfits : frame.Fits start)
    (hinside : frame.Inside start)
    (h : Framed frame (IsStatement frame start) start attempt attempt') :
    Recovering.Framed frame (IsStatement frame start) start attempt.recover attempt'.recover := by
  unfold Framed at h
  unfold Recovering.Framed Attempt.recover
  generalize (attempt start).run = outcome at h
  generalize (attempt' (frame.cursor start)).run = outcome' at h
  have hlast {events : List Event} {event : Event} : event ∈ events ++ [event] := by simp
  cases h with
  | @kept _ _ events hresult =>
    cases hresult with
    | ok hread hanswer => exact .kept hread hanswer
    -- Both attempts failed, so both are given up, at places that correspond.
    | @error read failure hread hinside' =>
      obtain ⟨more, hmore, hne⟩ := exists_reads_resumeAfter hread
      have hevent := event_abandoned (hfits.of_reads hread) hinside' start
        (start.resumeAfter failure)
      have happend (event : Event) :
          events.map frame.event ++ [frame.event event] = (events ++ [event]).map frame.event := by
        rw [List.map_append, List.map_singleton]
      dsimp only
      rw [Frame.resumeAfter_cursor hinside, ← hevent, happend]
      exact .kept hmore ⟨rfl, hne⟩
    -- Only the attempt outside is known to fail, at the end, and its record says so.
    | cut hahead hcode => exact .cut hahead hlast (isCut_abandoned hcode _ _ _)
  | @cut outcome outcome' event hahead hmem hcut =>
    -- The record of the end was made before, and recovery keeps it.
    obtain ⟨value, events⟩ := outcome
    cases value with
    | ok answer => exact .cut hahead hmem hcut
    | error failure => exact .cut hahead (List.mem_append_left _ hmem) hcut
  | failed hahead hcode => exact .cut hahead hlast (isCut_abandoned hcode _ _ _)

end Attempt

end NeutronLang
