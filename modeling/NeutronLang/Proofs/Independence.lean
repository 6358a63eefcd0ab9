import NeutronLang.Proofs.LatestWins

/-!
# Documents do not interfere

An `Account` of a document is kept from its own signals alone: which operations begin on it, which
settings they get, and how hand-overs end. It needs no revisions from the outside, since calls are
nested: the settings that come are always those for the innermost validation that waits for some.
In every session the account tells what the validator keeps about the document and which lists it
has handed over (`Session.Told`), and an operation on any document returns with the same validations
waiting as when it was called (`Session.returns_runSteps`). So two sessions that send the same
signals of a document agree on it, whatever else happens in them.
-/

namespace NeutronLang

/-- Something that happens to a document, whose `Account` follows from such signals alone. -/
inductive Signal where
  /-- A validation of a text begins or, where there is no text, a close. -/
  | began (text : Option String)
  /-- A validation has its settings, or an error instead. -/
  | answered (settings : Option Settings)
  /-- A hand-over of diagnostics ends, well or not. -/
  | received (well : Bool)
deriving DecidableEq

namespace Happening

/-- What an event tells a document. An event of another document is no `Signal`. -/
def signal? (uri : String) : Happening → Option Signal
  | began other _ text => if other = uri then some (.began text) else none
  | answered other _ settings => if other = uri then some (.answered settings.toOption) else none
  | received other _ well => if other = uri then some (.received well) else none
  | _ => none

/-- The list of a `.published` event of a document. -/
def handed? (uri : String) : Happening → Option (List Diagnostic)
  | published other _ found => if other = uri then some found else none
  | _ => none

end Happening

/-- The `Signal`s of a document on a record, the latest first. -/
def signals (uri : String) (record : List Happening) : List Signal :=
  record.filterMap (·.signal? uri)

/-- The lists that are handed over for the document `uri` on a record, the latest first. -/
def handedLists (uri : String) (record : List Happening) : List (List Diagnostic) :=
  record.filterMap (·.handed? uri)

/-! ## Accounts -/

/-- What the `Signal`s of a document tell about it. -/
structure Account where
  revision : Nat
  stored : Option (List Diagnostic)
  /-- The results that there are to hand over, the latest first. -/
  results : List (List Diagnostic)
  /-- The validations that wait for their settings, the innermost first: texts and revisions. -/
  waiting : List (String × Nat)

namespace Account

/-- The account of a document to which nothing has happened. -/
def empty : Account := ⟨0, none, [], []⟩

/-- The account after the innermost of the `waiting` validations has its settings or ends without
them. -/
def answer (account : Account) (uri : String) (settings : Option Settings) : Account :=
  match account.waiting with
  | [] => account
  | (text, revision) :: waiting =>
    match settings with
    | some settings =>
      if account.revision = revision then
        let found := (validate uri text.toList settings).diagnostics
        { account with stored := some found, results := found :: account.results, waiting }
      else { account with waiting }
    | none => { account with waiting }

/-- The account after a `Signal`. -/
def hear (uri : String) : Signal → Account → Account
  | .began none, account =>
    { account with
      revision := account.revision + 1, stored := none, results := [] :: account.results }
  | .began (some text), account =>
    { account with
      revision := account.revision + 1
      waiting := (text, account.revision + 1) :: account.waiting }
  | .answered settings, account => account.answer uri settings
  | .received _, account => account

/-- `answer` is for the innermost of the validations that wait. -/
theorem waiting_answer (account : Account) (uri : String) (settings : Option Settings) :
    (account.answer uri settings).waiting = account.waiting.tail := by
  unfold answer
  split
  · next hwaiting => rw [hwaiting, List.tail_nil]
  · next hwaiting =>
    rw [hwaiting, List.tail_cons]
    split
    · split <;> rfl
    · rfl

section

variable {account : Account} {uri text : String} {revision : Nat} {waiting : List (String × Nat)}
  {settings : Settings} (hwaiting : account.waiting = (text, revision) :: waiting)
include hwaiting

/-- `answer` adds no result for a validation that gets no settings. -/
theorem answer_none : account.answer uri none = { account with waiting } := by
  rw [answer, hwaiting]

/-- `answer` adds no result for a validation after which another operation has begun. -/
theorem answer_of_ne (h : account.revision ≠ revision) :
    account.answer uri (some settings) = { account with waiting } := by
  rw [answer, hwaiting]
  exact if_neg h

/-- `answer` adds the diagnostics of a validation that is still the latest operation. -/
theorem answer_of_eq (h : account.revision = revision) :
    let found := (validate uri text.toList settings).diagnostics
    account.answer uri (some settings) =
      { account with stored := some found, results := found :: account.results, waiting } := by
  rw [answer, hwaiting]
  exact if_pos h

end

end Account

namespace Session

/-- The account of a document in a session: what its `signals` tell. -/
def account (uri : String) (session : Session) : Account :=
  (signals uri session.record).foldr (Account.hear uri) .empty

/-- The account of a document is right: it has the revision and what is `stored`, and its results
are the lists that were handed over, with those that are `due`. -/
structure Told (uri : String) (due : List (List Diagnostic)) (session : Session) : Prop where
  revision : session.validator.revision uri = (session.account uri).revision
  stored : session.validator.stored.lookup uri = (session.account uri).stored
  handed : if session.publishes then
      due ++ handedLists uri session.record = (session.account uri).results
    else handedLists uri session.record = []

/-- The session `after` comes after `session`: the same validations of a document wait in it, and
the account of the document is right again if it was before. -/
structure Returns (uri : String) (session after : Session) : Prop where
  told : session.Told uri [] → after.Told uri []
  waiting : (after.account uri).waiting = (session.account uri).waiting

section

variable {uri other : String} {session middle after : Session} {happening : Happening}
  {due : List (List Diagnostic)}

/-- An event changes the account of a document if it is a `Signal` of it. -/
theorem account_happened (uri : String) (session : Session) (happening : Happening) :
    (session.happened happening).account uri =
      (happening.signal? uri).elim (session.account uri) fun signal =>
        (session.account uri).hear uri signal := by
  unfold account signals
  cases hsignal : happening.signal? uri with
  | none => exact congrArg _ (List.filterMap_cons_none hsignal)
  | some signal => exact congrArg _ (List.filterMap_cons_some hsignal)

/-- An account stays right after an event if it follows what the event does to the revision, to what
is stored and to what is handed over. -/
theorem told_happened
    (hrevision : session.validator.revision uri + (if happening.begins uri then 1 else 0) =
      ((session.happened happening).account uri).revision)
    (hstored : (happening.stores? uri).getD (session.validator.stored.lookup uri) =
      ((session.happened happening).account uri).stored)
    (hhanded : if session.publishes then
        due ++ ((happening.handed? uri).toList ++ handedLists uri session.record) =
          ((session.happened happening).account uri).results
      else (happening.handed? uri).toList ++ handedLists uri session.record = []) :
    (session.happened happening).Told uri due := by
  refine ⟨?_, ?_, ?_⟩
  · rw [← hrevision]
    exact session.validator.revision_effect happening uri
  · rw [← hstored]
    exact session.validator.stored_effect happening uri
  · have hlists : handedLists uri (happening :: session.record) =
        (happening.handed? uri).toList ++ handedLists uri session.record := by
      unfold handedLists
      rw [List.filterMap_cons]
      cases happening.handed? uri <;> rfl
    show if session.publishes then due ++ handedLists uri (_ :: session.record) = _
      else handedLists uri (_ :: session.record) = []
    rw [hlists]
    exact hhanded

/-- `Told` stays true after an event that is neither a `Signal` of the document nor concerns what is
known about it. -/
theorem Told.unseen (h : session.Told uri due)
    (haccount : (session.happened happening).account uri = session.account uri)
    (hbegins : happening.begins uri = false) (hstores : happening.stores? uri = none)
    (hhanded : happening.handed? uri = none) : (session.happened happening).Told uri due := by
  refine told_happened ?_ ?_ ?_ <;> rw [haccount]
  · simpa [hbegins] using h.revision
  · simpa [hstores] using h.stored
  · simpa [hhanded] using h.handed

/-- A session `Returns` for a document after an event that belongs to no operation on it. -/
theorem returns_happened (hother : ∀ revision, happening.operation? ≠ some (uri, revision)) :
    Returns uri session (session.happened happening) := by
  have hsignal : happening.signal? uri = none := by
    cases happening <;>
      simp_all [Happening.signal?, Happening.operation?]
  have haccount : (session.happened happening).account uri = session.account uri := by
    rw [account_happened, hsignal]
    rfl
  refine ⟨fun h => h.unseen haccount ?_ ?_ ?_, congrArg Account.waiting haccount⟩
  · cases happening <;> simp_all [Happening.begins, Happening.operation?]
  · cases happening <;> simp_all [Happening.stores?, Happening.operation?]
  · cases happening <;> simp_all [Happening.handed?, Happening.operation?]

/-- A session `Returns` for a document after an event of an operation on another one. -/
theorem returns_other {revision : Nat} (hne : other ≠ uri)
    (h : happening.operation? = some (other, revision)) :
    Returns uri session (session.happened happening) :=
  returns_happened fun revision' hmine => by
    rw [h] at hmine
    cases hmine
    exact hne rfl

theorem Returns.refl : Returns uri session session := ⟨id, rfl⟩

theorem Returns.trans (h : Returns uri session middle) (hmore : Returns uri middle after) :
    Returns uri session after := ⟨hmore.told ∘ h.told, hmore.waiting.trans h.waiting⟩

/-- `Returns` is about the record, the validator and `publishes` alone: what concerns only the
editor may change. -/
theorem returns_of_eq (hrecord : after.record = session.record)
    (hvalidator : after.validator = session.validator)
    (hpublishes : after.publishes = session.publishes) : Returns uri session after := by
  have haccount : after.account uri = session.account uri := by
    unfold account
    rw [hrecord]
  refine ⟨fun h => ⟨?_, ?_, ?_⟩, congrArg Account.waiting haccount⟩
  · rw [hvalidator, haccount, h.revision]
  · rw [hvalidator, haccount, h.stored]
  · rw [hpublishes, hrecord, haccount]
    exact h.handed

/-- A session `Returns` after `.received`, which is a signal of which nothing follows. -/
theorem returns_received (session : Session) (uri other : String) (revision : Nat) (well : Bool) :
    Returns uri session
      ({ session with failing := false }.happened (.received other revision well)) := by
  have hedited : Returns uri session { session with failing := false } := returns_of_eq rfl rfl rfl
  refine hedited.trans ?_
  by_cases hmine : other = uri
  · have haccount :=
      account_happened uri { session with failing := false } (.received other revision well)
    have hsignal : (Happening.received other revision well).signal? uri = some (.received well) :=
      if_pos hmine
    rw [hsignal] at haccount
    exact ⟨fun h => h.unseen haccount rfl rfl rfl, congrArg Account.waiting haccount⟩
  · exact returns_other hmine rfl

end

section

variable {session : Session} {uri text : String} {revision : Nat} {due : List (List Diagnostic)}
  {waiting : List (String × Nat)}

/-- The account has a validation that begins among those `waiting`. -/
theorem account_began : (session.happened (.began uri revision (some text))).account uri =
    { session.account uri with
      revision := (session.account uri).revision + 1
      waiting := (text, (session.account uri).revision + 1) :: (session.account uri).waiting } := by
  rw [account_happened, Happening.signal?, if_pos rfl]
  rfl

/-- The account has the empty result of a close that begins at once. -/
theorem account_closed : ((session.happened (.began uri revision none)).happened
    (.forgot uri revision)).account uri =
      { session.account uri with
        revision := (session.account uri).revision + 1
        stored := none
        results := [] :: (session.account uri).results } := by
  rw [account_happened, account_happened, Happening.signal?, if_pos rfl]
  rfl

/-- The account takes `.answered` for the validation that began last of those that wait. -/
theorem account_answered {settings : Except SettingsFault Settings} :
    (session.happened (.answered uri revision settings)).account uri =
      (session.account uri).answer uri settings.toOption := by
  rw [account_happened, Happening.signal?, if_pos rfl]
  rfl

/-- A result that is due is handed over with the others, if any are. -/
theorem Told.handed_of_due (h : session.Told uri []) (found : List Diagnostic) :
    if session.publishes then
      [found] ++ handedLists uri session.record = found :: (session.account uri).results
    else handedLists uri session.record = [] := by
  have hhanded := h.handed
  split
  · next hpublishes =>
    rw [if_pos hpublishes] at hhanded
    exact congrArg (found :: ·) hhanded
  · next hpublishes =>
    rw [if_neg hpublishes] at hhanded
    exact hhanded

/-- All results are handed over, or none. -/
theorem Told.handed_cases (h : session.Told uri []) :
    handedLists uri session.record = (session.account uri).results ∨
      handedLists uri session.record = [] := by
  have hhanded := h.handed
  split at hhanded
  · exact .inl hhanded
  · exact .inr hhanded

theorem told_began (h : session.Told uri due) :
    (session.happened (.began uri revision (some text))).Told uri due := by
  refine told_happened ?_ ?_ ?_ <;> rw [account_began]
  · simpa [Happening.begins] using h.revision
  · exact h.stored
  · exact h.handed

theorem told_closed (h : session.Told uri []) :
    ((session.happened (.began uri revision none)).happened (.forgot uri revision)).Told uri
      [[]] := by
  refine told_happened ?_ ?_ ?_ <;> rw [account_closed]
  · have hraised := session.validator.revision_begin_self uri
    rw [h.revision] at hraised
    exact hraised
  · simp [Happening.stores?]
  · exact h.handed_of_due []

section

variable (h : session.Told uri [])
  (hwaiting : (session.account uri).waiting = (text, revision) :: waiting)
include h hwaiting

/-- A validation that fails leaves the account right, with nothing due to be handed over. -/
theorem told_failed {fault : SettingsFault} :
    (session.happened (.answered uri revision (.error fault))).Told uri [] := by
  refine told_happened ?_ ?_ ?_ <;>
    rw [account_answered, Except.toOption, Account.answer_none hwaiting]
  · exact h.revision
  · exact h.stored
  · exact h.handed

/-- A validation that is not the latest operation any more leaves the account right, with nothing
due to be handed over. -/
theorem told_dropped {settings : Settings} (hlater : session.validator.revision uri ≠ revision) :
    ((session.happened (.answered uri revision (.ok settings))).happened
      (.dropped uri revision)).Told uri [] := by
  rw [h.revision] at hlater
  have hanswered : Told uri [] (session.happened (.answered uri revision (.ok settings))) := by
    refine told_happened ?_ ?_ ?_ <;>
      rw [account_answered, Except.toOption, Account.answer_of_ne hwaiting hlater]
    · exact h.revision
    · exact h.stored
    · exact h.handed
  exact hanswered.unseen rfl rfl rfl rfl

/-- A validation that is the latest operation leaves the account right, with its result due to be
handed over. -/
theorem told_kept {settings : Settings} (hlatest : session.validator.revision uri = revision) :
    let found := (validate uri text.toList settings).diagnostics
    ((session.happened (.answered uri revision (.ok settings))).happened
      (.kept uri revision found)).Told uri [found] := by
  intro found
  rw [h.revision] at hlatest
  have haccount : ((session.happened (.answered uri revision (.ok settings))).happened
      (.kept uri revision found)).account uri =
        (session.account uri).answer uri (some settings) := account_answered
  rw [Account.answer_of_eq hwaiting hlatest] at haccount
  refine told_happened ?_ ?_ ?_ <;> rw [haccount]
  · exact h.revision
  · simp [Happening.stores?, found]
  · exact h.handed_of_due found

end

end

/-! ## Operations on a document -/

section

variable {runScript : List Step → StateM Session Unit} {uri : String}
  (hscripts : ∀ script session, Returns uri session ((runScript script).run session).2)
  (session : Session)
include hscripts

/-- A script `Returns` although it has been taken from its queue, which is nothing to a document. -/
theorem returns_script {taken : Session} (script : List Step)
    (hrecord : taken.record = session.record) (hvalidator : taken.validator = session.validator)
    (hpublishes : taken.publishes = session.publishes) :
    Returns uri session ((runScript script).run taken).2 :=
  (returns_of_eq hrecord hvalidator hpublishes).trans (hscripts script taken)

theorem returns_answerQuestion :
    Returns uri session ((answerQuestion runScript).run session).2 := by
  rw [run_answerQuestion]
  cases session.onSettings with
  | nil => exact .refl
  | cons script rest => exact returns_script hscripts session script rfl rfl rfl

theorem returns_receiveDiagnostics :
    Returns uri session ((receiveDiagnostics runScript).run session).2 := by
  rw [run_receiveDiagnostics]
  cases session.onPublish with
  | nil => exact .refl
  | cons script rest => exact returns_script hscripts session script rfl rfl rfl

theorem returns_askedSettings (other : String) :
    Returns uri session ((askedSettings runScript other).run session).2 := by
  rw [run_askedSettings]
  split
  · exact returns_answerQuestion hscripts session
  · exact .refl

/-- `publish` returns with an account that is right, if its own result was what was due to be handed
over. -/
theorem returns_publish {concluded : Session} {found : List Diagnostic} (revision : Nat)
    (htold : session.Told uri [] → concluded.Told uri [found])
    (hwaiting : (concluded.account uri).waiting = (session.account uri).waiting) :
    Returns uri session ((publish runScript uri revision found).run concluded).2 := by
  rw [run_publish]
  split
  · next hpublishes =>
    have hpublished : Returns uri session (concluded.happened (.published uri revision found)) := by
      refine ⟨fun h => ⟨(htold h).revision, (htold h).stored, ?_⟩, hwaiting⟩
      have hlists : handedLists uri (.published uri revision found :: concluded.record) =
          found :: handedLists uri concluded.record := List.filterMap_cons_some (if_pos rfl)
      have hhanded := (htold h).handed
      rw [if_pos hpublishes] at hhanded
      show if concluded.publishes then [] ++ handedLists uri (_ :: concluded.record) = _ else _
      rw [if_pos hpublishes, hlists]
      exact hhanded
    exact (hpublished.trans (returns_receiveDiagnostics hscripts _)).trans
      (returns_received _ uri uri revision _)
  · next hpublishes =>
    refine ⟨fun h => ⟨(htold h).revision, (htold h).stored, ?_⟩, hwaiting⟩
    have hhanded := (htold h).handed
    rw [if_neg hpublishes] at hhanded
    rw [if_neg hpublishes]
    exact hhanded

/-- `publish` for another document `Returns`. -/
theorem returns_publish_of_ne {other : String} (hne : other ≠ uri) (revision : Nat)
    (found : List Diagnostic) :
    Returns uri session ((publish runScript other revision found).run session).2 := by
  rw [run_publish]
  split
  · have hpublished : Returns uri session (session.happened (.published other revision found)) :=
      returns_other hne rfl
    exact (hpublished.trans (returns_receiveDiagnostics hscripts _)).trans
      (returns_received _ uri other revision _)
  · exact .refl

/-- `validateDocument` waits for its settings, and then leaves the account of its document right. -/
theorem returns_validate (text : String) :
    Returns uri session ((validateDocument runScript uri text).run session).2 := by
  have hasked := returns_askedSettings hscripts
    (session.happened (.began uri (session.validator.revision uri + 1) (some text))) uri
  rw [run_validateDocument]
  dsimp only
  generalize hrevision : session.validator.revision uri + 1 = revision at hasked ⊢
  generalize (askedSettings runScript uri).run _ = asked at hasked ⊢
  obtain ⟨answer, asked⟩ := asked
  have hwaiting := hasked.waiting
  rw [account_began] at hwaiting
  -- before the answer the validation waits as the innermost one, with its text and its revision
  have htold (h : session.Told uri []) : asked.Told uri [] ∧
      (asked.account uri).waiting = (text, revision) :: (session.account uri).waiting := by
    rw [← hrevision, h.revision]
    exact ⟨hasked.told (told_began h), hwaiting⟩
  -- and with the answer it waits no more, whatever the answer is
  have hanswered : ((asked.account uri).answer uri answer.toOption).waiting =
      (session.account uri).waiting := by
    rw [Account.waiting_answer, hwaiting]
    rfl
  rw [← account_answered] at hanswered
  cases answer with
  | error fault => exact ⟨fun h => told_failed (htold h).1 (htold h).2, hanswered⟩
  | ok settings =>
    dsimp only
    split
    · next hlatest =>
      exact returns_publish hscripts session _
        (fun h => told_kept (htold h).1 (htold h).2 hlatest) hanswered
    · next hlater => exact ⟨fun h => told_dropped (htold h).1 (htold h).2 hlater, hanswered⟩

/-- `validateDocument` for another document `Returns`. -/
theorem returns_validate_of_ne {other : String} (hne : other ≠ uri) (text : String) :
    Returns uri session ((validateDocument runScript other text).run session).2 := by
  have hbegan : Returns uri session (session.happened
      (.began other (session.validator.revision other + 1) (some text))) := returns_other hne rfl
  have hasked := hbegan.trans (returns_askedSettings hscripts _ other)
  rw [run_validateDocument]
  dsimp only
  generalize (askedSettings runScript other).run _ = asked at hasked ⊢
  obtain ⟨fault | settings, asked⟩ := asked
  · exact hasked.trans (returns_other hne rfl)
  · have hanswered : Returns uri session (asked.happened
        (.answered other (session.validator.revision other + 1) (.ok settings))) :=
      hasked.trans (returns_other hne rfl)
    dsimp only
    split
    · exact (hanswered.trans (returns_other hne rfl)).trans
        (returns_publish_of_ne hscripts _ hne _ _)
    · exact hanswered.trans (returns_other hne rfl)

theorem returns_validateDocument (other text : String) :
    Returns uri session ((validateDocument runScript other text).run session).2 := by
  by_cases hmine : other = uri
  · subst hmine
    exact returns_validate hscripts session text
  · exact returns_validate_of_ne hscripts session hmine text

/-- `closeDocument` leaves the account of its document right, and is nothing to another document. -/
theorem returns_closeDocument (other : String) :
    Returns uri session ((closeDocument runScript other).run session).2 := by
  rw [run_closeDocument]
  dsimp only
  by_cases hmine : other = uri
  · subst hmine
    exact returns_publish hscripts session _ told_closed (by rw [account_closed])
  · have hbegan : Returns uri session (session.happened
        (.began other (session.validator.revision other + 1) none)) := returns_other hmine rfl
    exact (hbegan.trans (returns_other hmine rfl)).trans
      (returns_publish_of_ne hscripts _ hmine _ _)

/-- `revalidate` leaves the account right, also if one of its validations is the last because it
fails. -/
theorem returns_revalidate (texts : List (String × String)) :
    Returns uri session ((revalidate runScript texts).run session).2 := by
  induction texts generalizing session with
  | nil => exact .refl
  | cons entry texts ih =>
    obtain ⟨other, text⟩ := entry
    have hfirst := returns_validateDocument hscripts session other text
    rw [revalidate, run_bind]
    generalize (validateDocument runScript other text).run session = first at hfirst ⊢
    obtain ⟨fault | found, after⟩ := first
    · exact hfirst
    · dsimp only at hfirst ⊢
      rw [run_bind_pure]
      exact hfirst.trans (ih after)

theorem returns_perform (step : Step) :
    Returns uri session ((perform runScript step).run session).2 := by
  cases step with
  | validate other text =>
    rw [perform, run_bind_pure]
    exact returns_validateDocument hscripts session other text
  | close other =>
    rw [perform, run_bind_pure]
    exact returns_closeDocument hscripts session other
  | revalidate texts =>
    rw [perform, run_bind_pure]
    exact returns_revalidate hscripts session texts
  | _ => exact returns_of_eq rfl rfl rfl

theorem returns_forM (steps : List Step) :
    Returns uri session ((steps.forM (runStep runScript)).run session).2 := by
  induction steps generalizing session with
  | nil => exact .refl
  | cons step steps ih =>
    have hstep : Returns uri session ((runStep runScript step).run session).2 := by
      rw [run_runStep]
      exact (returns_perform hscripts session step).trans (returns_happened fun _ => nofun)
    exact hstep.trans (ih _)

end

/-- `runSteps` leaves the account of each document right if it was before, whatever the editor does
and however deep its calls are nested. -/
theorem returns_runSteps (uri : String) (depth : Nat) (steps : List Step) (session : Session) :
    Returns uri session ((runSteps depth steps).run session).2 := by
  induction depth generalizing steps session with
  | zero => exact returns_forM (fun _ _ => .refl) session steps
  | succ depth ih => exact returns_forM ih session steps

end Session

/-! ## Two sessions -/

/-- Whether a `Signal` is the end of a hand-over. -/
def Signal.isReceived : Signal → Bool
  | received _ => true
  | _ => false

/-- As many hand-overs for the document `uri` end on a record as begin. -/
def HandOversEnd (uri : String) (record : List Happening) : Prop :=
  (signals uri record).countP Signal.isReceived = (handedLists uri record).length

namespace HandOversEnd

variable {uri : String} {first second : List Happening}

theorem append (h : HandOversEnd uri second) (hfirst : HandOversEnd uri first) :
    HandOversEnd uri (second ++ first) := by
  unfold HandOversEnd signals handedLists at *
  rw [List.filterMap_append, List.countP_append, List.filterMap_append, List.length_append, h,
    hfirst]

/-- `HandOversEnd` holds of a record on which no hand-over begins or ends. -/
theorem of_forall {record : List Happening}
    (h : ∀ happening ∈ record, happening.handed? uri = none ∧
      ∀ signal ∈ happening.signal? uri, signal.isReceived = false) : HandOversEnd uri record := by
  have hlists : handedLists uri record = [] :=
    List.filterMap_eq_nil_iff.mpr fun happening hmem => (h happening hmem).1
  have hsignals : (signals uri record).countP Signal.isReceived = 0 := by
    refine List.countP_eq_zero.mpr fun signal hsignal => ?_
    obtain ⟨happening, hmem, htells⟩ := List.mem_filterMap.mp hsignal
    simp [(h happening hmem).2 signal htells]
  rw [HandOversEnd, hlists, hsignals, List.length_nil]

/-- `HandOversEnd` holds of the events with which an operation `Concludes`. -/
theorem of_concludes {other : String} {revision : Nat} {state : Validator} {text : Option String}
    {during own : List Happening} {found : Option (List Diagnostic)}
    (h : Concludes other revision state text during own found) (hduring : HandOversEnd uri during) :
    HandOversEnd uri (own ++ (during ++ [.began other revision text])) := by
  refine append (of_forall ?_) (append hduring (of_forall ?_))
  · cases h <;> simp [Happening.handed?, Happening.signal?, Signal.isReceived]
  · simp [Happening.handed?, Happening.signal?, Signal.isReceived]

/-- `HandOversEnd` holds of a `handOver` if it does of what its call does. -/
theorem of_handOver {other : String} {revision : Nat} {found : List Diagnostic}
    {call : List Happening × Bool} (h : HandOversEnd uri call.1) :
    HandOversEnd uri (handOver other revision found call) := by
  have hends : HandOversEnd uri
      [.received other revision call.2, .published other revision found] := by
    by_cases hmine : other = uri <;>
      simp [HandOversEnd, signals, handedLists, Happening.signal?, Happening.handed?,
        Signal.isReceived, hmine]
  unfold HandOversEnd signals handedLists handOver at *
  rw [← List.singleton_append] at hends ⊢
  simp only [List.filterMap_append, List.countP_append, List.length_append] at hends ⊢
  omega

end HandOversEnd

/-- Whatever `Happens`, every hand-over ends. -/
theorem Happens.handOversEnd {state : Validator} {record : List Happening}
    (h : Happens state record) (uri : String) : HandOversEnd uri record := by
  induction h with
  | nothing | finished => rfl
  | append _ _ ihfirst ihsecond => exact ihsecond.append ihfirst
  | quiet _ hconcludes ih => exact .of_concludes hconcludes ih
  | handed _ hconcludes _ ih ihcall =>
    exact .append (.of_handOver ihcall) (.of_concludes hconcludes ih)

/-- From the start, `runSteps` keeps all accounts right, and all its hand-overs end. -/
theorem Session.told_run (uri : String) (depth : Nat) (steps : List Step)
    (settings : List (String × Json)) (asks publishes : Bool) :
    let session := ((runSteps depth steps).run (start settings asks publishes)).2
    session.Told uri [] ∧ HandOversEnd uri session.record := by
  intro session
  have hstart : (start settings asks publishes).Told uri [] :=
    ⟨rfl, rfl, by cases publishes <;> rfl⟩
  obtain ⟨record, hhappens, hrecord, -⟩ :=
    leads_runSteps depth steps (start settings asks publishes)
  have hall : session.record = record := hrecord.trans (List.append_nil record)
  exact ⟨(returns_runSteps uri depth steps _).told hstart, hall ▸ hhappens.handOversEnd uri⟩

/-- Documents do not interfere: two sessions in which the same `Signal`s come to a document agree on
its revision, on what is stored for it and on the lists that were handed over for it, whatever is
done with other documents, and also if it is done inside the calls made for the document or around
them. -/
theorem runSteps_independent (uri : String) (depth depth' : Nat) (steps steps' : List Step)
    (settings settings' : List (String × Json)) (asks asks' publishes publishes' : Bool) :
    let session := ((Session.runSteps depth steps).run (.start settings asks publishes)).2
    let session' := ((Session.runSteps depth' steps').run (.start settings' asks' publishes')).2
    signals uri session.record = signals uri session'.record →
      session.validator.revision uri = session'.validator.revision uri ∧
        session.validator.stored.lookup uri = session'.validator.stored.lookup uri ∧
        handedLists uri session.record = handedLists uri session'.record := by
  intro session session' hsignals
  obtain ⟨htold, hends⟩ := Session.told_run uri depth steps settings asks publishes
  obtain ⟨htold', hends'⟩ := Session.told_run uri depth' steps' settings' asks' publishes'
  -- an account is kept from the signals alone
  have haccount : session.account uri = session'.account uri :=
    congrArg (List.foldr (Account.hear uri) .empty) hsignals
  -- the signals say how many lists were handed over, so both sessions have handed over some or
  -- neither
  have hlength : (handedLists uri session.record).length =
      (handedLists uri session'.record).length := by
    unfold HandOversEnd at hends hends'
    rw [← hends, ← hends', hsignals]
  refine ⟨?_, ?_, ?_⟩
  · rw [htold.revision, htold'.revision, haccount]
  · rw [htold.stored, htold'.stored, haccount]
  · rcases htold.handed_cases with hhanded | hnone
    · rcases htold'.handed_cases with hhanded' | hnone'
      · rw [hhanded, hhanded', haccount]
      · rw [hnone', List.length_nil] at hlength
        rw [hnone', List.eq_nil_of_length_eq_zero hlength]
    · rw [hnone, List.length_nil] at hlength
      rw [hnone, List.eq_nil_of_length_eq_zero hlength.symm]

/-- Two validations of a document by themselves, and with operations on other documents: the first
is made in a call for another document, whose close is in a call for it, and the second goes on to
validate others when it hands its result over. -/
theorem runSteps_independent_nested :
    let session := ((Session.runSteps 0 [.validate "a" "x = 1", .validate "a" "y;"]).run
      (.start [] true true)).2
    let session' := ((Session.runSteps 2
      [.onSettings [.onPublish [.close "b"], .validate "a" "x = 1"], .onSettings [.close "b"],
        .validate "b" "z", .onPublish [.revalidate [("b", "z"), ("c", "")]],
        .validate "a" "y;"]).run (.start [] true true)).2
    session.validator.revision "b" ≠ session'.validator.revision "b" ∧
      signals "a" session.record = signals "a" session'.record ∧
      session.validator.revision "a" = session'.validator.revision "a" ∧
        session.validator.stored.lookup "a" = session'.validator.stored.lookup "a" ∧
        handedLists "a" session.record = handedLists "a" session'.record := by
  have h := runSteps_independent "a" 0 2
    [.validate "a" "x = 1", .validate "a" "y;"]
    [.onSettings [.onPublish [.close "b"], .validate "a" "x = 1"], .onSettings [.close "b"],
      .validate "b" "z", .onPublish [.revalidate [("b", "z"), ("c", "")]],
      .validate "a" "y;"] [] [] true true true true
  refine ⟨?_, ?_, h ?_⟩ <;> decide +kernel

end NeutronLang
