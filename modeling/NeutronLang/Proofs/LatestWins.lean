import NeutronLang.Proofs.Happenings

/-!
# The latest operation wins

Operations on a document may begin inside the two calls that an operation makes, to any depth. What
a session leaves on its record is then always one of the call trees of `Happens`, so that the facts
about these hold for every run. `Leads` relates the sessions before and after: each part of an
operation leads from one to the other if the scripts in its calls do (`Session.exists_validates`),
and so the steps of an editor do by induction on the depth to which calls are nested
(`Session.leads_runSteps`).
-/

namespace NeutronLang

namespace Session

/-! ## Running operations -/

/-- The session after an event: the event is on its `record` and has its `effect` on the
`validator`. -/
def happened (session : Session) (happening : Happening) : Session :=
  { session with
    validator := happening.effect session.validator
    record := happening :: session.record }

section

variable {α β : Type} (runScript : List Step → StateM Session Unit) (session : Session)
  (uri : String) (revision : Nat)

/-- `>>=` runs the second operation on the session of the first, unless the first has failed. -/
theorem run_bind (first : Operation α) (next : α → Operation β) :
    (first >>= next).run session = match first.run session with
      | (.ok answer, after) => (next answer).run after
      | (.error fault, after) => (.error fault, after) := by
  show StateT.run (first >>= next).run session = _
  have hrun : StateT.run first.run session = first.run session := rfl
  rw [ExceptT.run_bind, StateT.run_bind, hrun]
  rcases first.run session with ⟨answer | fault, after⟩ <;> rfl

/-- `>>= pure` changes the answer of an operation and nothing else. -/
theorem run_bind_pure (first : Operation α) (f : α → β) :
    (first >>= fun answer => pure (f answer)).run session =
      ((first.run session).1.map f, (first.run session).2) := by
  rw [run_bind]
  rcases first.run session with ⟨fault | answer, after⟩ <;> rfl

/-- A lifted step, which cannot fail, hands its answer and its session to the next operation. -/
theorem run_lift_bind (first : StateM Session α) (next : α → Operation β) :
    ((liftM first : Operation α) >>= next).run session =
      (next (first.run session).1).run (first.run session).2 := by
  rw [run_bind]
  rfl

/-- `begin` answers with the next revision of the document and puts `.began` on the record. -/
theorem run_begin (text : Option String) :
    (begin uri text).run session =
      (session.validator.revision uri + 1,
        session.happened (.began uri (session.validator.revision uri + 1) text)) := by
  have hraised := session.validator.revision_begin_self uri
  show ((session.validator.begin uri).revision uri,
    session.happened (.began uri ((session.validator.begin uri).revision uri) text)) = _
  rw [hraised]

/-- `answerQuestion` runs the oldest script that waits in `onSettings`. -/
theorem run_answerQuestion :
    (answerQuestion runScript).run session = match session.onSettings with
      | [] => ((), session)
      | script :: rest => (runScript script).run { session with onSettings := rest } := by
  rw [answerQuestion, StateT.run_bind]
  show (StateT.run (match session.onSettings with | [] => _ | _ :: _ => _) session) = _
  cases session.onSettings <;> rfl

/-- `receiveDiagnostics` runs the oldest script that waits in `onPublish`. -/
theorem run_receiveDiagnostics :
    (receiveDiagnostics runScript).run session = match session.onPublish with
      | [] => ((), session)
      | script :: rest => (runScript script).run { session with onPublish := rest } := by
  rw [receiveDiagnostics, StateT.run_bind]
  show (StateT.run (match session.onPublish with | [] => _ | _ :: _ => _) session) = _
  cases session.onPublish <;> rfl

/-- `askedSettings` looks at the settings after the script of the question, if it is asked at
all. -/
theorem run_askedSettings :
    (askedSettings runScript uri).run session =
      if session.asks then
        let asked := ((answerQuestion runScript).run session).2
        ((asked.settings.lookup uri).elim (.ok .standard) Settings.ofJson, asked)
      else (.ok .standard, session) := by
  rw [askedSettings, StateT.run_bind]
  show StateT.run (if !session.asks then _ else _ : StateM Session _) session = _
  cases session.asks <;> rfl

/-- `settingsFor` puts `.answered` on the record, and wrong settings are a failure. -/
theorem run_settingsFor :
    (settingsFor runScript uri revision).run session =
      match (askedSettings runScript uri).run session with
      | (.ok settings, asked) =>
        (.ok settings, asked.happened (.answered uri revision (.ok settings)))
      | (.error fault, asked) =>
        (.error (.settings fault), asked.happened (.answered uri revision (.error fault))) := by
  rw [settingsFor, run_lift_bind]
  rcases (askedSettings runScript uri).run session with ⟨answer | settings, asked⟩ <;> rfl

/-- `publish` puts `.published` on the record before its call and `.received` after it, and fails if
the editor says so. -/
theorem run_publish (found : List Diagnostic) :
    (publish runScript uri revision found).run session =
      if session.publishes then
        let called := ((receiveDiagnostics runScript).run
          (session.happened (.published uri revision found))).2
        (if called.failing then .error .publish else .ok (),
          { called with failing := false }.happened (.received uri revision !called.failing))
      else (.ok (), session) := by
  rw [publish]
  show (if !session.publishes then pure () else _ : Operation Unit).run session = _
  cases session.publishes
  · rfl
  · simp only [Bool.not_true, Bool.false_eq_true, if_false, if_true]
    rw [run_lift_bind, run_lift_bind]
    have hnote : ((note (.published uri revision found)).run session).2 =
      session.happened (.published uri revision found) := rfl
    rw [hnote]
    rcases ((receiveDiagnostics runScript).run _).2 with ⟨_, _, _, _, _, _, failing, _⟩
    cases failing <;> rfl

/-- `validateDocument` goes on by the revision of its document after the question about settings. -/
theorem run_validateDocument (text : String) :
    (validateDocument runScript uri text).run session =
      let revision := session.validator.revision uri + 1
      let began := session.happened (.began uri revision (some text))
      match (askedSettings runScript uri).run began with
      | (.error fault, asked) =>
        (.error (.settings fault), asked.happened (.answered uri revision (.error fault)))
      | (.ok settings, asked) =>
        let found := (validate uri text.toList settings).diagnostics
        let answered := asked.happened (.answered uri revision (.ok settings))
        if asked.validator.revision uri = revision then
          let ended := (publish runScript uri revision found).run
            (answered.happened (.kept uri revision found))
          (ended.1.map fun _ => some found, ended.2)
        else (.ok none, answered.happened (.dropped uri revision)) := by
  rw [validateDocument, run_lift_bind, run_begin]
  dsimp only
  rw [run_bind, run_settingsFor]
  rcases (askedSettings runScript uri).run _ with ⟨fault | settings, asked⟩
  · rfl
  · dsimp only
    show (if asked.validator.revision uri = _ then _ else _ : Operation _).run _ = _
    -- whether the answer still counts is asked only now, after the editor has had its turn
    split
    · rw [run_lift_bind, run_lift_bind, run_bind_pure]
      rfl
    · rfl

/-- The `Answer` of a step whose operation ends with an outcome. -/
def answered : Except SessionFault Answer → Answer
  | .ok answer => answer
  | .error fault => .failed fault

/-- `runStep` does what `perform` does, and then puts `.finished` on the record. -/
theorem run_runStep (step : Step) :
    ((runStep runScript step).run session).2 =
      ((perform runScript step).run session).2.happened
        (.finished step (answered ((perform runScript step).run session).1)) := by
  have hrun : StateT.run (perform runScript step).run session =
    (perform runScript step).run session := rfl
  rw [runStep, StateT.run_bind, hrun]
  rcases (perform runScript step).run session with ⟨fault | answer, after⟩ <;> rfl

/-- `closeDocument` asks for nothing, so that nothing can begin before `.forgot` is on the
record. -/
theorem run_closeDocument :
    (closeDocument runScript uri).run session =
      let revision := session.validator.revision uri + 1
      (publish runScript uri revision []).run
        ((session.happened (.began uri revision none)).happened (.forgot uri revision)) := by
  rw [closeDocument, run_lift_bind, run_begin]
  rfl

end

/-! ## What happens between two sessions -/

/-- The session `after` comes after `session`: its record goes on from that of `session`, with call
trees (`Happens`) whose `replay` is the state of its validator. -/
def Leads (session after : Session) : Prop :=
  ∃ record, Happens session.validator record ∧ after.record = record ++ session.record ∧
    after.validator = session.validator.replay record

/-- `Leads` is about the record and the validator alone: what concerns only the editor may
change. -/
theorem leads_of_eq {session after : Session} (hrecord : after.record = session.record)
    (hvalidator : after.validator = session.validator) : Leads session after :=
  ⟨[], .nothing, hrecord, hvalidator⟩

theorem Leads.trans {session middle after : Session} (hfirst : Leads session middle)
    (hsecond : Leads middle after) : Leads session after := by
  obtain ⟨first, hhappens, hrecord, hvalidator⟩ := hfirst
  obtain ⟨second, hhappens', hrecord', hvalidator'⟩ := hsecond
  rw [hvalidator] at hhappens' hvalidator'
  refine ⟨second ++ first, .append hhappens hhappens', ?_, ?_⟩
  · rw [hrecord', hrecord, List.append_assoc]
  · rw [hvalidator', Validator.replay_append]

section

variable {runScript : List Step → StateM Session Unit}
  (hscripts : ∀ script session, Leads session ((runScript script).run session).2)
  (session : Session) (uri : String)
include hscripts

/-- A script leads on although it has been taken from its queue, which is not on the record. -/
theorem leads_script {taken : Session} (script : List Step)
    (hrecord : taken.record = session.record) (hvalidator : taken.validator = session.validator) :
    Leads session ((runScript script).run taken).2 :=
  (leads_of_eq hrecord hvalidator).trans (hscripts script taken)

theorem leads_answerQuestion : Leads session ((answerQuestion runScript).run session).2 := by
  rw [run_answerQuestion]
  cases session.onSettings with
  | nil => exact leads_of_eq rfl rfl
  | cons script rest => exact leads_script hscripts session script rfl rfl

theorem leads_receiveDiagnostics :
    Leads session ((receiveDiagnostics runScript).run session).2 := by
  rw [run_receiveDiagnostics]
  cases session.onPublish with
  | nil => exact leads_of_eq rfl rfl
  | cons script rest => exact leads_script hscripts session script rfl rfl

theorem leads_askedSettings : Leads session ((askedSettings runScript uri).run session).2 := by
  rw [run_askedSettings]
  split
  · exact leads_answerQuestion hscripts session
  · exact leads_of_eq rfl rfl

/-- `publish` leaves a whole `handOver` on the record, if diagnostics are handed over at all. -/
theorem exists_handOver (revision : Nat) (found : List Diagnostic) :
    let after := ((publish runScript uri revision found).run session).2
    after = session ∨ ∃ call, Happens session.validator call.1 ∧
      after.record = handOver uri revision found call ++ session.record ∧
      after.validator = session.validator.replay call.1 := by
  rw [run_publish]
  split
  · have hcalled := leads_receiveDiagnostics hscripts
      (session.happened (.published uri revision found))
    generalize ((receiveDiagnostics runScript).run
      (session.happened (.published uri revision found))).2 = called at hcalled ⊢
    obtain ⟨during, hduring, hrecord, hvalidator⟩ := hcalled
    refine .inr ⟨(during, !called.failing), hduring, ?_, hvalidator⟩
    rw [handOver_append]
    exact congrArg (List.cons _) hrecord
  · exact .inl rfl

section

variable {text : Option String} {during own : List Happening} {before : Session}
  (hduring : Happens (session.validator.begin uri) during)
  (hrecord : before.record = own ++ (during ++
    .began uri (session.validator.revision uri + 1) text :: session.record))
  (hvalidator : before.validator = ((session.validator.begin uri).replay during).replay own)
include hduring hrecord hvalidator

omit hscripts in
/-- An operation that `Concludes` with nothing to hand over leads on. -/
theorem leads_quiet {found : Option (List Diagnostic)}
    (hconcludes : Concludes uri (session.validator.revision uri + 1)
      ((session.validator.begin uri).replay during) text during own found) :
    Leads session before := by
  refine ⟨_, .quiet hduring hconcludes, ?_, ?_⟩
  · rw [hrecord, List.append_assoc, List.append_assoc, List.singleton_append]
  · rw [hvalidator, replay_quiet]

/-- An operation that `Concludes` with a result leads on through `publish`. -/
theorem leads_publish {found : List Diagnostic}
    (hconcludes : Concludes uri (session.validator.revision uri + 1)
      ((session.validator.begin uri).replay during) text during own (some found)) :
    Leads session ((publish runScript uri (session.validator.revision uri + 1) found).run
      before).2 := by
  obtain hsame | ⟨call, hcall, hrecord', hvalidator'⟩ := exists_handOver hscripts before uri
    (session.validator.revision uri + 1) found
  · rw [hsame]
    exact leads_quiet session uri hduring hrecord hvalidator hconcludes
  · rw [hvalidator] at hcall hvalidator'
    refine ⟨_, .handed hduring hconcludes hcall, ?_, ?_⟩
    · rw [hrecord', hrecord, List.append_assoc, List.append_assoc, List.append_assoc,
        List.singleton_append]
    · rw [hvalidator', handOver_append, Validator.replay, Validator.replay_append,
        Validator.replay, replay_quiet]
      rfl

end

/-- `validateDocument` leads on in each of its three ways to end: it fails, is dropped, or is kept
and handed over. -/
theorem leads_validateDocument (text : String) :
    Leads session ((validateDocument runScript uri text).run session).2 := by
  have hasked := leads_askedSettings hscripts
    (session.happened (.began uri (session.validator.revision uri + 1) (some text))) uri
  rw [run_validateDocument]
  dsimp only
  generalize (askedSettings runScript uri).run _ = asked at hasked ⊢
  obtain ⟨during, hduring, hrecord, hvalidator⟩ := hasked
  obtain ⟨answer, asked⟩ := asked
  -- what the validation adds itself stands on top of what happened during its question
  have hanswered (own : List Happening) : own ++ asked.record = own ++ (during ++
      .began uri (session.validator.revision uri + 1) (some text) :: session.record) :=
    congrArg (own ++ ·) hrecord
  cases answer with
  | error fault =>
    exact leads_quiet session uri hduring (hanswered [_]) hvalidator .failed
  | ok settings =>
    dsimp only at hvalidator ⊢
    split
    · next hlatest =>
      rw [hvalidator] at hlatest
      exact leads_publish hscripts session uri hduring (hanswered [_, _])
        (congrArg (Validator.keep · uri _) hvalidator) (.kept hlatest)
    · next hlater =>
      rw [hvalidator] at hlater
      exact leads_quiet session uri hduring (hanswered [_, _]) hvalidator (.dropped hlater)

/-- `closeDocument` leads on in its one way to end. -/
theorem leads_closeDocument : Leads session ((closeDocument runScript uri).run session).2 := by
  rw [run_closeDocument]
  exact leads_publish hscripts session uri .nothing rfl rfl .closed

/-- `revalidate` leads on by its validations in order, up to the first failure. -/
theorem leads_revalidate (texts : List (String × String)) :
    Leads session ((revalidate runScript texts).run session).2 := by
  induction texts generalizing session with
  | nil => exact leads_of_eq rfl rfl
  | cons entry texts ih =>
    obtain ⟨uri, text⟩ := entry
    have hfirst := leads_validateDocument hscripts session uri text
    rw [revalidate, run_bind]
    generalize (validateDocument runScript uri text).run session = first at hfirst ⊢
    obtain ⟨fault | found, after⟩ := first
    · exact hfirst
    · dsimp only at hfirst ⊢
      rw [run_bind_pure]
      exact hfirst.trans (ih after)

theorem leads_perform (step : Step) : Leads session ((perform runScript step).run session).2 := by
  cases step with
  | validate uri text =>
    rw [perform, run_bind_pure]
    exact leads_validateDocument hscripts session uri text
  | close uri =>
    rw [perform, run_bind_pure]
    exact leads_closeDocument hscripts session uri
  | revalidate texts =>
    rw [perform, run_bind_pure]
    exact leads_revalidate hscripts session texts
  | _ => exact leads_of_eq rfl rfl

/-- `runStep` leads on, and a question about diagnostics is answered by the state it has led to. -/
theorem leads_runStep (step : Step) : Leads session ((runStep runScript step).run session).2 := by
  have hperformed := leads_perform hscripts session step
  rw [run_runStep]
  refine hperformed.trans ⟨_, .finished ?_, rfl, rfl⟩
  -- Only the answer about diagnostics says something about the state.
  cases step with
  | diagnostics uri => rfl
  | _ => trivial

theorem leads_forM (steps : List Step) :
    Leads session ((steps.forM (runStep runScript)).run session).2 := by
  induction steps generalizing session with
  | nil => exact leads_of_eq rfl rfl
  | cons step steps ih => exact (leads_runStep hscripts session step).trans (ih _)

end

/-- `runSteps` leads on, whatever the scripts of the editor do and however deep its calls are
nested. -/
theorem leads_runSteps (depth : Nat) (steps : List Step) (session : Session) :
    Leads session ((runSteps depth steps).run session).2 := by
  induction depth generalizing steps session with
  | zero => exact leads_forM (fun _ _ => leads_of_eq rfl rfl) session steps
  | succ depth ih => exact leads_forM ih session steps

end Session

/-! ## The last operation on a document -/

/-- From the start on, `revision` is `begunCount`: the number of operations begun on the
document. -/
theorem Validator.revision_empty_replay (record : List Happening) (uri : String) :
    (Validator.empty.replay record).revision uri = begunCount uri record := by
  rw [Validator.revision_replay]
  exact Nat.zero_add _

/-- Each event of a record `Fits` the state that it finds. -/
theorem Happens.fits_at {record later earlier : List Happening} {happening : Happening}
    (h : Happens .empty record) (hsplit : record = later ++ happening :: earlier) :
    happening.Fits (Validator.empty.replay earlier) := by
  have hfits := h.fits
  rw [hsplit, Validator.fits_append] at hfits
  exact hfits.2.1

/-- What stores something for a document belongs to the latest operation on it. -/
theorem Happens.isOf_of_stores {record later earlier : List Happening} {happening : Happening}
    (h : Happens .empty record) (hsplit : record = later ++ happening :: earlier) {uri : String}
    {entry : Option (List Diagnostic)} (hstores : happening.stores? uri = some entry) :
    happening.isOf uri (begunCount uri earlier) := by
  have hfits := h.fits_at hsplit
  cases happening <;> simp only [Happening.stores?, reduceCtorEq] at hstores
  all_goals
    split at hstores
    · next heq =>
      subst heq
      rw [Happening.Fits, Validator.revision_empty_replay] at hfits
      simp [Happening.isOf, Happening.operation?, hfits]
    · cases hstores

/-- Each operation that has begun on a record has left its `Trail` there. -/
theorem Happens.trail_of_le {record : List Happening} (h : Happens .empty record) {uri : String}
    {revision : Nat} (hpositive : 0 < revision) (hle : revision ≤ begunCount uri record) :
    Trail uri revision (record.filter (·.isOf uri revision)) :=
  h.trail hpositive ((Validator.revision_empty_replay record uri).symm ▸ hle)

/-- An event belongs to one operation. -/
theorem Happening.revision_unique {happening : Happening} {uri : String} {revision revision' : Nat}
    (h : happening.isOf uri revision) (h' : happening.isOf uri revision') :
    revision = revision' := by
  have hsame := (beq_iff_eq.mp h).symm.trans (beq_iff_eq.mp h')
  cases hsame
  rfl

/-- `begunCount` is no greater for an earlier part of the record. -/
theorem begunCount_le (uri : String) (later earlier : List Happening) (happening : Happening) :
    begunCount uri earlier ≤ begunCount uri (later ++ happening :: earlier) :=
  ((List.sublist_cons_self _ _).trans (List.sublist_append_right _ _)).countP_le

/-- Where no operation has begun, `stored` has no entry for the document. -/
theorem Happens.stored_of_untouched {record : List Happening} (h : Happens .empty record)
    {uri : String} (hcount : begunCount uri record = 0) :
    (Validator.empty.replay record).stored.lookup uri = none := by
  have hnone : record.findSome? (·.stores? uri) = none := by
    refine List.findSome?_eq_none_iff.mpr fun happening hmem => ?_
    cases hentry : happening.stores? uri with
    | none => rfl
    | some entry =>
      obtain ⟨later, earlier, hsplit⟩ := List.append_of_mem hmem
      have hisOf := h.isOf_of_stores hsplit hentry
      have hbounds := h.between happening hmem uri _ (beq_iff_eq.mp hisOf)
      rw [Validator.revision_empty_replay, hcount] at hbounds
      omega
  rw [Validator.stored_replay, hnone]
  rfl

/-- `begunCount` counts `.began`. -/
theorem begunCount_cons_began (uri : String) (revision : Nat) (text : Option String)
    (record : List Happening) :
    begunCount uri (.began uri revision text :: record) = begunCount uri record + 1 := by
  simp [begunCount, Happening.begins]

/-- `findSome?` needs no items but those that it may find. -/
theorem findSome?_filter_of_forall {α β : Type} {f : α → Option β} {wanted : α → Bool}
    {items : List α} (h : ∀ item ∈ items, ∀ found, f item = some found → wanted item = true) :
    (items.filter wanted).findSome? f = items.findSome? f := by
  induction items with
  | nil => rfl
  | cons item items ih =>
    have hrest := ih fun other hmem => h other (List.mem_cons_of_mem _ hmem)
    rw [List.filter_cons, List.findSome?_cons]
    cases hfound : f item with
    | none =>
      split
      · rw [List.findSome?_cons, hfound, hrest]
      · exact hrest
    | some found =>
      rw [if_pos (h item List.mem_cons_self found hfound), List.findSome?_cons, hfound]

namespace Trail

variable {uri : String} {revision : Nat} {own : List Happening} (h : Trail uri revision own)
include h

/-- A `Trail` that begins without a text, which is that of a close, has stored that there is
nothing. -/
theorem stored_of_closed (hbegan : .began uri revision none ∈ own) :
    own.findSome? (·.stores? uri) = some none := by
  cases h <;> simp_all [Happening.stores?]

/-- A `Trail` whose settings are wrong has stored nothing. -/
theorem stored_of_failed {fault : SettingsFault}
    (hanswered : .answered uri revision (.error fault) ∈ own) :
    own.findSome? (·.stores? uri) = none := by
  cases h <;> simp_all [Happening.stores?]

/-- A `Trail` with settings has stored the diagnostics of its text, unless they were dropped. -/
theorem stored_of_answered {text : String} {settings : Settings}
    (hbegan : .began uri revision (some text) ∈ own)
    (hanswered : .answered uri revision (.ok settings) ∈ own)
    (hdropped : .dropped uri revision ∉ own) :
    own.findSome? (·.stores? uri) =
      some (some (validate uri text.toList settings).diagnostics) := by
  cases h <;> simp_all [Happening.stores?]

end Trail

section

variable {record later earlier : List Happening} {uri : String} {revision : Nat}
  {text : Option String} (h : Happens .empty record)
  (hsplit : record = later ++ .began uri revision text :: earlier)
  (hlast : begunCount uri later = 0)
include h hsplit

/-- The revision of an operation is its number among those begun on its document. -/
theorem Happens.revision_eq_of_began : revision = begunCount uri earlier + 1 := by
  have hfits := h.fits_at hsplit
  rwa [Happening.Fits, Validator.revision_empty_replay] at hfits

include hlast

/-- What is stored for a document in the end is what the last operation on it has stored or, if that
has stored nothing, what was stored before. -/
theorem Happens.stored_of_last :
    (Validator.empty.replay record).stored.lookup uri =
      ((record.filter (·.isOf uri revision)).findSome? (·.stores? uri)).getD
        ((Validator.empty.replay earlier).stored.lookup uri) := by
  have hrevision := h.revision_eq_of_began hsplit
  -- Since it began, no other operation can have stored anything.
  have hlater : (later.filter (·.isOf uri revision)).findSome? (·.stores? uri) =
      later.findSome? (·.stores? uri) := by
    refine findSome?_filter_of_forall fun happening hmem entry hentry => ?_
    obtain ⟨after, before, rfl⟩ := List.append_of_mem hmem
    rw [List.append_assoc, List.cons_append] at hsplit
    have hisOf := h.isOf_of_stores hsplit hentry
    have hbefore := begunCount_le uri after before happening
    rw [begunCount_append, begunCount_cons_began] at hisOf
    have hcount : begunCount uri before + (begunCount uri earlier + 1) = revision := by omega
    rwa [hcount] at hisOf
  -- Before it began, it cannot have stored anything itself.
  have hearlier : (earlier.filter (·.isOf uri revision)).findSome? (·.stores? uri) = none := by
    refine List.findSome?_eq_none_iff.mpr fun happening hmem => ?_
    obtain ⟨hmem, hmine⟩ := List.mem_filter.mp hmem
    cases hentry : happening.stores? uri with
    | none => rfl
    | some entry =>
      obtain ⟨after, before, rfl⟩ := List.append_of_mem hmem
      rw [← List.cons_append, ← List.append_assoc] at hsplit
      have hisOf := h.isOf_of_stores hsplit hentry
      have hbefore := begunCount_le uri after before happening
      have hsame := Happening.revision_unique hmine hisOf
      omega
  rw [hsplit, Validator.replay_append, Validator.stored_replay, Validator.replay,
    Validator.stored_effect, List.filter_append, List.findSome?_append, hlater,
    List.filter_cons_of_pos (by simp [Happening.isOf, Happening.operation?]),
    List.findSome?_cons, hearlier]
  simp [Happening.stores?]

/-- The last operation has left its `Trail`, and its beginning is on it. -/
theorem Happens.trail_of_last : Trail uri revision (record.filter (·.isOf uri revision)) ∧
    .began uri revision text ∈ record.filter (·.isOf uri revision) := by
  have hrevision := h.revision_eq_of_began hsplit
  constructor
  · refine h.trail_of_le (hrevision ▸ Nat.succ_pos _) ?_
    rw [hsplit, begunCount_append, begunCount_cons_began]
    omega
  · refine List.mem_filter.mpr ⟨?_, beq_iff_eq.mpr rfl⟩
    rw [hsplit]
    exact List.mem_append_right _ List.mem_cons_self

/-- `.dropped` is not on the record for the last operation. -/
theorem Happens.dropped_notMem_of_last : .dropped uri revision ∉ record := by
  intro hmem
  obtain ⟨after, before, hdropped⟩ := List.append_of_mem hmem
  have hfits := h.fits_at hdropped
  rw [Happening.Fits, Validator.revision_empty_replay] at hfits
  have hbefore := begunCount_le uri after before (.dropped uri revision)
  have hrevision := h.revision_eq_of_began hsplit
  rw [← hdropped, hsplit, begunCount_append, begunCount_cons_began, hlast] at hbefore
  omega

end

/-! ## The latest operation wins -/

/-- What the record of a session shows if on every document the latest operation wins. A moment of
the session is an end part of its `record`, since the latest event stands first. -/
structure LatestWins (session : Session) : Prop where
  /-- The `replay` of the record is the state of the validator. -/
  replayed : session.validator = Validator.empty.replay session.record
  /-- The revision of a document is the number of operations begun on it. -/
  counts (uri : String) : session.validator.revision uri = begunCount uri session.record
  /-- The revision of an operation is the number of those begun on its document up to its own
  beginning. -/
  numbered {uri : String} {revision : Nat} {text : Option String} {earlier : List Happening} :
    .began uri revision text :: earlier <:+ session.record → revision = begunCount uri earlier + 1
  /-- Every operation leaves its `Trail`. -/
  courses {uri : String} {revision : Nat} : 0 < revision →
    revision ≤ begunCount uri session.record →
      Trail uri revision (session.record.filter (·.isOf uri revision))
  /-- A result is kept if no later operation on its document has begun. -/
  kept {uri : String} {revision : Nat} {found : List Diagnostic} {earlier : List Happening} :
    .kept uri revision found :: earlier <:+ session.record → revision = begunCount uri earlier
  /-- A result is dropped if a later operation on its document has begun. -/
  dropped {uri : String} {revision : Nat} {earlier : List Happening} :
    .dropped uri revision :: earlier <:+ session.record → revision < begunCount uri earlier
  /-- What is handed over is what is known about the document at that moment. -/
  published {uri : String} {revision : Nat} {found : List Diagnostic} {earlier : List Happening} :
    .published uri revision found :: earlier <:+ session.record →
      found = (Validator.empty.replay earlier).diagnostics uri
  /-- What is known about a document is what a question about it is answered with. -/
  asked {uri : String} {answer : Answer} {earlier : List Happening} :
    .finished (.diagnostics uri) answer :: earlier <:+ session.record →
      answer = .diagnostics (some ((Validator.empty.replay earlier).diagnostics uri))
  /-- Later revisions are handed over later. -/
  ascending (uri : String) : (handedOver uri session.record).Pairwise (· > ·)
  /-- Where no operation has begun, nothing is stored. -/
  untouched {uri : String} : begunCount uri session.record = 0 →
    session.validator.stored.lookup uri = none
  /-- Where the last operation is a close, nothing is stored. -/
  closed {uri : String} {revision : Nat} {later earlier : List Happening} :
    session.record = later ++ .began uri revision none :: earlier → begunCount uri later = 0 →
      session.validator.stored.lookup uri = none
  /-- Where the last operation is a validation that has had its settings, its own result is
  stored. -/
  validated {uri text : String} {revision : Nat} {later earlier : List Happening}
    {settings : Settings} :
    session.record = later ++ .began uri revision (some text) :: earlier →
      begunCount uri later = 0 → .answered uri revision (.ok settings) ∈ session.record →
        session.validator.stored.lookup uri =
          some (validate uri text.toList settings).diagnostics
  /-- Where the last operation is a validation whose settings are wrong, what was stored when it
  began is stored. -/
  failed {uri text : String} {revision : Nat} {later earlier : List Happening}
    {fault : SettingsFault} :
    session.record = later ++ .began uri revision (some text) :: earlier →
      begunCount uri later = 0 → .answered uri revision (.error fault) ∈ session.record →
        session.validator.stored.lookup uri =
          (Validator.empty.replay earlier).stored.lookup uri

/-- The latest operation wins in every session whose record is that of call trees (`Happens`) from
the start on. -/
theorem Happens.latestWins {session : Session} (h : Happens .empty session.record)
    (hreplayed : session.validator = Validator.empty.replay session.record) :
    LatestWins session where
  replayed := hreplayed
  counts uri := hreplayed ▸ Validator.revision_empty_replay session.record uri
  numbered := by
    rintro uri revision text earlier ⟨later, hsplit⟩
    exact h.revision_eq_of_began hsplit.symm
  courses := h.trail_of_le
  kept := by
    rintro uri revision found earlier ⟨later, hsplit⟩
    exact (h.fits_at hsplit.symm).trans (Validator.revision_empty_replay earlier uri)
  dropped := by
    rintro uri revision earlier ⟨later, hsplit⟩
    exact (Validator.revision_empty_replay earlier uri) ▸ h.fits_at hsplit.symm
  published := by
    rintro uri revision found earlier ⟨later, hsplit⟩
    exact (h.fits_at hsplit.symm).2
  asked := by
    rintro uri answer earlier ⟨later, hsplit⟩
    exact h.fits_at hsplit.symm
  ascending := h.handedOver_pairwise
  untouched := by
    intro uri hcount
    rw [hreplayed, h.stored_of_untouched hcount]
  -- what is stored is decided by the operation that was begun last, here a closing
  closed := by
    intro uri revision later earlier hsplit hlast
    obtain ⟨htrail, hbegan⟩ := h.trail_of_last hsplit hlast
    rw [hreplayed, h.stored_of_last hsplit hlast, htrail.stored_of_closed hbegan]
    rfl
  validated := by
    intro uri text revision later earlier settings hsplit hlast hanswered
    obtain ⟨htrail, hbegan⟩ := h.trail_of_last hsplit hlast
    have hdropped := h.dropped_notMem_of_last hsplit hlast
    rw [hreplayed, h.stored_of_last hsplit hlast, htrail.stored_of_answered hbegan
      (List.mem_filter.mpr ⟨hanswered, beq_iff_eq.mpr rfl⟩)
      fun hmem => hdropped (List.mem_filter.mp hmem).1]
    rfl
  failed := by
    intro uri text revision later earlier fault hsplit hlast hanswered
    obtain ⟨htrail, -⟩ := h.trail_of_last hsplit hlast
    rw [hreplayed, h.stored_of_last hsplit hlast,
      htrail.stored_of_failed (List.mem_filter.mpr ⟨hanswered, beq_iff_eq.mpr rfl⟩)]
    rfl

namespace Session

/-- How a validation goes, as told from its call for settings: it is called in a session and gets a
revision, the call ends with an answer in the session `asked`, and `during` is what has happened
meanwhile. Only the beginnings among that decide whether the result is kept. -/
structure Validates (runScript : List Step → StateM Session Unit) (session : Session)
    (uri text : String) (revision : Nat) (answer : Except SettingsFault Settings) (asked : Session)
    (during : List Happening) : Prop where
  begins : revision = session.validator.revision uri + 1
  asks : (askedSettings runScript uri).run (session.happened (.began uri revision (some text))) =
    (answer, asked)
  meanwhile : asked.record = during ++ .began uri revision (some text) :: session.record
  /-- The revision of the document has been raised by each beginning in the call. -/
  raised : asked.validator.revision uri = revision + begunCount uri during
  /-- Wrong settings end the validation. -/
  failed {fault : SettingsFault} : answer = .error fault →
    (validateDocument runScript uri text).run session =
      (.error (.settings fault), asked.happened (.answered uri revision (.error fault)))
  /-- With no beginning in the call, the result is kept, handed over when it is what is known about
  the document, and returned unless the hand-over fails. -/
  latest {settings : Settings} : answer = .ok settings → begunCount uri during = 0 →
    let found := (validate uri text.toList settings).diagnostics
    let keeping :=
      (asked.happened (.answered uri revision (.ok settings))).happened (.kept uri revision found)
    let ended := (publish runScript uri revision found).run keeping
    keeping.validator.diagnostics uri = found ∧
      (validateDocument runScript uri text).run session =
        (ended.1.map fun _ => some found, ended.2)
  /-- With a beginning in the call, the validation returns nothing, and has stored and handed over
  nothing. -/
  superseded {settings : Settings} : answer = .ok settings → 0 < begunCount uri during →
    (validateDocument runScript uri text).run session =
      (.ok none, (asked.happened (.answered uri revision (.ok settings))).happened
        (.dropped uri revision))

/-- How a close goes: its document is forgotten (`Validator.forget`) before anything else can begin,
and the empty list is handed over when nothing is known about the document. -/
structure Closes (runScript : List Step → StateM Session Unit) (session : Session) (uri : String)
    (revision : Nat) (forgetting : Session) : Prop where
  begins : revision = session.validator.revision uri + 1
  forgets : forgetting =
    (session.happened (.began uri revision none)).happened (.forgot uri revision)
  unknown : forgetting.validator.diagnostics uri = []
  hands : (closeDocument runScript uri).run session =
    (publish runScript uri revision []).run forgetting

/-- Whatever the scripts do, `closeDocument` forgets its document first. -/
theorem exists_closes (runScript : List Step → StateM Session Unit) (session : Session)
    (uri : String) : ∃ revision forgetting, Closes runScript session uri revision forgetting := by
  refine ⟨_, _, rfl, rfl, ?_, run_closeDocument runScript session uri⟩
  have hforgotten := Validator.lookup_filter_self session.validator.stored uri
  exact congrArg (·.getD []) hforgotten

/-- `validateDocument` goes on by what has begun meanwhile, whatever the scripts do, if they lead on
(`Leads`). -/
theorem exists_validates {runScript : List Step → StateM Session Unit}
    (hscripts : ∀ script session, Leads session ((runScript script).run session).2)
    (session : Session) (uri text : String) : ∃ revision answer asked during,
      Validates runScript session uri text revision answer asked during := by
  have hasked := leads_askedSettings hscripts
    (session.happened (.began uri (session.validator.revision uri + 1) (some text))) uri
  have hrun := run_validateDocument runScript session uri text
  dsimp only at hrun
  rcases hanswer : (askedSettings runScript uri).run
    (session.happened (.began uri (session.validator.revision uri + 1) (some text))) with
    ⟨answer, asked⟩
  rw [hanswer] at hasked hrun
  obtain ⟨during, -, hrecord, hvalidator⟩ := hasked
  have hraised := session.validator.revision_begin_self uri
  -- whatever happened during the question has raised the revision once for each time it began
  have hcount : asked.validator.revision uri =
      session.validator.revision uri + 1 + begunCount uri during := by
    rw [hvalidator, Validator.revision_replay]
    exact congrArg (· + begunCount uri during) hraised
  refine ⟨_, answer, asked, during, rfl, hanswer, hrecord, hcount, ?_, ?_, ?_⟩
  · rintro fault rfl
    exact hrun
  · rintro settings rfl hnone
    have hlatest : asked.validator.revision uri = session.validator.revision uri + 1 := by omega
    have hkept := Validator.lookup_put_self asked.validator.stored uri
      (validate uri text.toList settings).diagnostics
    rw [hrun]
    exact ⟨congrArg (·.getD []) hkept, if_pos hlatest⟩
  · rintro settings rfl hsome
    have hlater : asked.validator.revision uri ≠ session.validator.revision uri + 1 := by omega
    rw [hrun]
    exact if_neg hlater

/-- In every session of an editor, its calls nested to any depth, the latest operation on each
document wins (`LatestWins`), and every validation and every close in it goes as it has to for that
(`Validates`, `Closes`). -/
theorem runSteps_latestWins (settings : List (String × Json)) (asks publishes : Bool) (depth : Nat)
    (steps : List Step) :
    LatestWins ((runSteps depth steps).run (start settings asks publishes)).2 ∧
      (∀ session uri text, ∃ revision answer asked during,
        Validates (runSteps depth) session uri text revision answer asked during) ∧
      ∀ session uri, ∃ revision forgetting,
        Closes (runSteps depth) session uri revision forgetting := by
  obtain ⟨record, hhappens, hrecord, hvalidator⟩ :=
    leads_runSteps depth steps (start settings asks publishes)
  have hall : ((runSteps depth steps).run (start settings asks publishes)).2.record = record :=
    hrecord.trans (List.append_nil record)
  rw [← hall] at hhappens hvalidator
  exact ⟨hhappens.latestWins hvalidator, exists_validates (leads_runSteps depth),
    exists_closes (runSteps depth)⟩

/-- A document that is closed while its validation asks for settings stays closed: only the close
hands something over. -/
example :
    let session := ((runSteps 1 [.onSettings [.close "a"], .validate "a" "x"]).run
      (start [] true true)).2
    begunCount "a" session.record = 2 ∧ handedOver "a" session.record = [2] ∧
      session.validator.stored.lookup "a" = none := by
  decide

end Session

end NeutronLang
