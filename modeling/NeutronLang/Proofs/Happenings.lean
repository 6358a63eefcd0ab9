import NeutronLang.Session

/-!
# What happens in a session

`Happens` says which records a session can leave behind, as call trees: an operation begins, what
its call for settings does comes next, then its result is kept or dropped, and what its hand-over of
diagnostics does comes last. The callbacks may do anything that happens in a session, to any depth.

A record holds its latest event first, and it tells the state of the validator
(`Validator.replay`). Two facts carry everything else. The events between the beginning of an
operation and its end belong to operations with greater revisions (`Happens.between`); and what each
operation leaves on the record is one of four courses (`Happens.trail`).
-/

namespace NeutronLang

/-! ## Events and the state of the validator -/

namespace Happening

/-- The document and the revision of the operation that an event belongs to. -/
def operation? : Happening → Option (String × Nat)
  | began uri revision _ | answered uri revision _ | kept uri revision _ | forgot uri revision
  | dropped uri revision | published uri revision _ | received uri revision _ =>
    some (uri, revision)
  | finished .. => none

/-- Whether an event belongs to the operation of the document `uri` with a `revision`. -/
def isOf (uri : String) (revision : Nat) (happening : Happening) : Bool :=
  happening.operation? == some (uri, revision)

/-- Whether an event is the beginning of an operation on the document `uri`. -/
def begins (uri : String) : Happening → Bool
  | began other _ _ => other == uri
  | _ => false

/-- The revision of a `.published` event of a document. -/
def handedOver? (uri : String) : Happening → Option Nat
  | published other revision _ => if other = uri then some revision else none
  | _ => none

/-- What an event does to the state of the validator. -/
def effect : Happening → Validator → Validator
  | began uri _ _, validator => validator.begin uri
  | kept uri _ found, validator => validator.keep uri found
  | forgot uri _, validator => validator.forget uri
  | _, validator => validator

/-- An event agrees with the state of the validator when it happens. -/
def Fits (state : Validator) : Happening → Prop
  | began uri revision _ => revision = state.revision uri + 1
  | kept uri revision _ | forgot uri revision => revision = state.revision uri
  | dropped uri revision => revision < state.revision uri
  | published uri revision found =>
    revision = state.revision uri ∧ found = state.diagnostics uri
  | finished (.diagnostics uri) answer => answer = .diagnostics (some (state.diagnostics uri))
  | _ => True

end Happening

/-- How many operations on the document `uri` have begun on a record. -/
def begunCount (uri : String) (record : List Happening) : Nat := record.countP (·.begins uri)

/-- The state of a validator after what is on a record, the latest event first: each has its
`effect`. -/
def Validator.replay (validator : Validator) : List Happening → Validator
  | [] => validator
  | happening :: earlier => happening.effect (validator.replay earlier)

/-- Each event on a record `Fits` the state of the validator when it happens. -/
def Validator.Fits (validator : Validator) : List Happening → Prop
  | [] => True
  | happening :: earlier => happening.Fits (validator.replay earlier) ∧ validator.Fits earlier

namespace Validator

variable (validator : Validator) (later earlier : List Happening)

/-- The `replay` of a record goes on from the state that its earlier part has come to. -/
theorem replay_append :
    validator.replay (later ++ earlier) = (validator.replay earlier).replay later := by
  induction later with
  | nil => rfl
  | cons happening later ih => rw [List.cons_append, replay, replay, ih]

/-- A record `Fits` if its earlier part does, and its later part from the state after that. -/
theorem fits_append : validator.Fits (later ++ earlier) ↔
    (validator.replay earlier).Fits later ∧ validator.Fits earlier := by
  induction later with
  | nil => simp [Fits]
  | cons happening later ih => simp only [List.cons_append, Fits, replay_append, ih, and_assoc]

/-- An event raises the revision of a document by one if it `begins` an operation on it. -/
theorem revision_effect (happening : Happening) (uri : String) :
    (happening.effect validator).revision uri =
      validator.revision uri + if happening.begins uri then 1 else 0 := by
  cases happening with
  | began other revision text =>
    by_cases h : other = uri
    · subst h
      simp [Happening.effect, Happening.begins, revision_begin_self]
    · simp [Happening.effect, Happening.begins, revision_begin_of_ne _ (Ne.symm h), h]
  | _ => rfl

/-- `replay` raises the revision of a document by `begunCount`. -/
theorem revision_replay (record : List Happening) (uri : String) :
    (validator.replay record).revision uri = validator.revision uri + begunCount uri record := by
  induction record with
  | nil => rfl
  | cons happening earlier ih =>
    rw [replay, revision_effect, ih, begunCount, begunCount, List.countP_cons, Nat.add_assoc]

end Validator

/-! ## Call trees -/

/-- How an operation ends on the record before it hands anything over, and what there is to hand
over. The `state` is the one after its call for settings, which a close does not make. -/
inductive Concludes (uri : String) (revision : Nat) (state : Validator) :
    (text : Option String) → (during : List Happening) → List Happening →
      Option (List Diagnostic) → Prop where
  | failed {text : String} {during : List Happening} {fault : SettingsFault} :
      Concludes uri revision state (some text) during [.answered uri revision (.error fault)] none
  | dropped {text : String} {during : List Happening} {settings : Settings} :
      state.revision uri ≠ revision →
      Concludes uri revision state (some text) during
        [.dropped uri revision, .answered uri revision (.ok settings)] none
  | kept {text : String} {during : List Happening} {settings : Settings} :
      state.revision uri = revision →
      Concludes uri revision state (some text) during
        [.kept uri revision (validate uri text.toList settings).diagnostics,
          .answered uri revision (.ok settings)]
        (some (validate uri text.toList settings).diagnostics)
  | closed : Concludes uri revision state none [] [.forgot uri revision] (some [])

/-- A hand-over of diagnostics on the record, with what its `call` does and how it ends. -/
def handOver (uri : String) (revision : Nat) (found : List Diagnostic)
    (call : List Happening × Bool) : List Happening :=
  .received uri revision call.2 :: (call.1 ++ [.published uri revision found])

/-- `handOver` event by event: `.published`, what its call does, and `.received`. -/
theorem handOver_append (uri : String) (revision : Nat) (found : List Diagnostic)
    (call : List Happening × Bool) (record : List Happening) :
    handOver uri revision found call ++ record =
      .received uri revision call.2 :: (call.1 ++ .published uri revision found :: record) := by
  rw [handOver, List.cons_append, List.append_assoc, List.singleton_append]

/-- The call trees that can happen from a `state` of the validator on. -/
inductive Happens : Validator → List Happening → Prop where
  | nothing {state : Validator} : Happens state []
  | append {state : Validator} {first second : List Happening} : Happens state first →
      Happens (state.replay first) second → Happens state (second ++ first)
  /-- A question about the diagnostics of a document is answered by the state. -/
  | finished {state : Validator} {step : Step} {answer : Answer} :
      (Happening.finished step answer).Fits state → Happens state [.finished step answer]
  /-- An operation that hands nothing over. -/
  | quiet {state : Validator} {uri : String} {text : Option String}
      {during own : List Happening} {found : Option (List Diagnostic)} :
      Happens (state.begin uri) during →
      Concludes uri (state.revision uri + 1) ((state.begin uri).replay during) text during own
        found →
      Happens state (own ++ (during ++ [.began uri (state.revision uri + 1) text]))
  /-- An operation that hands its result over. -/
  | handed {state : Validator} {uri : String} {text : Option String}
      {during own : List Happening} {found : List Diagnostic} {call : List Happening × Bool} :
      Happens (state.begin uri) during →
      Concludes uri (state.revision uri + 1) ((state.begin uri).replay during) text during own
        (some found) →
      Happens (((state.begin uri).replay during).replay own) call.1 →
      Happens state (handOver uri (state.revision uri + 1) found call ++
        (own ++ (during ++ [.began uri (state.revision uri + 1) text])))

/-! ## The revisions on a record -/

/-- An event belongs to an operation (`Happening.isOf`) and is not its beginning. -/
def Happening.Continues (uri : String) (revision : Nat) (happening : Happening) : Prop :=
  happening.operation? = some (uri, revision) ∧ ∀ other, happening.begins other = false

/-- What an operation leaves when it `Concludes` belongs to it. -/
theorem Concludes.continues {uri : String} {revision : Nat} {state : Validator}
    {text : Option String} {during own : List Happening} {found : Option (List Diagnostic)}
    (h : Concludes uri revision state text during own found) :
    ∀ happening ∈ own, happening.Continues uri revision := by
  cases h <;> simp [Happening.Continues, Happening.operation?, Happening.begins]

/-- `begunCount` adds up over the parts of a record. -/
theorem begunCount_append (uri : String) (later earlier : List Happening) :
    begunCount uri (later ++ earlier) = begunCount uri later + begunCount uri earlier :=
  List.countP_append

/-- The events on a record belong to operations that begin on it: their revisions lie between those
of its two ends. -/
def Between (state : Validator) (record : List Happening) : Prop :=
  ∀ happening ∈ record, ∀ uri revision, happening.operation? = some (uri, revision) →
    state.revision uri < revision ∧ revision ≤ (state.replay record).revision uri

section

variable {state : Validator} {uri : String} {text : Option String} {revision : Nat}
  {record own first second : List Happening}

/-- `replay` lowers no revision. -/
theorem revision_le_replay (state : Validator) (record : List Happening) (uri : String) :
    state.revision uri ≤ (state.replay record).revision uri := by
  rw [Validator.revision_replay]
  exact Nat.le_add_right _ _

/-- `begin` raises the revision of its document, and what happens later does not take that back. -/
theorem begun_le (state : Validator) (uri : String) (during : List Happening) :
    state.revision uri + 1 ≤ ((state.begin uri).replay during).revision uri := by
  rw [← state.revision_begin_self uri]
  exact revision_le_replay _ during uri

/-- `.began` with the next revision lies `Between` the ends of its record. -/
theorem between_began : Between state [.began uri (state.revision uri + 1) text] := by
  intro happening hmem other revision hoperation
  obtain rfl := List.mem_singleton.mp hmem
  obtain ⟨rfl, rfl⟩ : uri = other ∧ state.revision uri + 1 = revision := by
    simpa [Happening.operation?] using hoperation
  have hraised : (state.begin uri).revision uri = state.revision uri + 1 :=
    state.revision_begin_self uri
  exact ⟨Nat.lt_succ_self _, Nat.le_of_eq hraised.symm⟩

/-- `Between` holds of a record if it does of its earlier part and, from there on, of its later
one. -/
theorem Between.append (hfirst : Between state first)
    (hsecond : Between (state.replay first) second) : Between state (second ++ first) := by
  intro happening hmem uri revision hoperation
  rw [Validator.replay_append]
  have hlow := revision_le_replay state first uri
  have hhigh := revision_le_replay (state.replay first) second uri
  rcases List.mem_append.mp hmem with hmem | hmem
  · have hbounds := hsecond happening hmem uri revision hoperation
    omega
  · have hbounds := hfirst happening hmem uri revision hoperation
    omega

/-- `Between` stays true when operations that have begun leave more on the record. -/
theorem Between.continue (h : Between state record)
    (hown : ∀ happening ∈ own, happening.Continues uri revision)
    (hlow : state.revision uri < revision)
    (hhigh : revision ≤ (state.replay record).revision uri) : Between state (own ++ record) := by
  intro happening hmem other revision' hoperation
  rw [Validator.replay_append]
  have hrises := revision_le_replay (state.replay record) own other
  rcases List.mem_append.mp hmem with hmem | hmem
  · obtain ⟨rfl, rfl⟩ : uri = other ∧ revision = revision' := by
      have hmine := (hown happening hmem).1
      rw [hoperation] at hmine
      simpa [eq_comm] using hmine
    exact ⟨hlow, Nat.le_trans hhigh hrises⟩
  · have hbounds := h happening hmem other revision' hoperation
    exact ⟨hbounds.1, Nat.le_trans hbounds.2 hrises⟩

/-- `Between` stays true when an operation that has begun leaves one more event. -/
theorem Between.cons {happening : Happening} (h : Between state record)
    (hown : happening.Continues uri revision) (hlow : state.revision uri < revision)
    (hhigh : revision ≤ (state.replay record).revision uri) : Between state (happening :: record) :=
  h.continue (by simpa using hown : ∀ other ∈ [happening], other.Continues uri revision) hlow hhigh

/-- `Between` stays true when an operation leaves one more event, if its beginning is on the
record. -/
theorem Between.cons_of_began {happening : Happening} (h : Between state record)
    (hown : happening.Continues uri revision) (hbegan : .began uri revision text ∈ record) :
    Between state (happening :: record) := by
  obtain ⟨hlow, hhigh⟩ := h _ hbegan uri revision rfl
  exact h.cons hown hlow hhigh

/-- The `replay` of an operation begins, goes through its call for settings, and ends with its own
events. -/
theorem replay_quiet (state : Validator) (uri : String) (revision : Nat) (text : Option String)
    (own during : List Happening) :
    state.replay (own ++ (during ++ [.began uri revision text])) =
      ((state.begin uri).replay during).replay own := by
  rw [Validator.replay_append, Validator.replay_append]
  rfl

end

/-- An operation, with its call for settings, lies `Between` the revisions from its beginning on. -/
theorem between_quiet {state : Validator} {uri : String} {text : Option String}
    {during own : List Happening} {found : Option (List Diagnostic)}
    (hduring : Between (state.begin uri) during)
    (hconcludes : Concludes uri (state.revision uri + 1) ((state.begin uri).replay during) text
      during own found) :
    Between state (own ++ (during ++ [.began uri (state.revision uri + 1) text])) := by
  refine (between_began.append hduring).continue hconcludes.continues (Nat.lt_succ_self _) ?_
  rw [Validator.replay_append]
  exact begun_le state uri during

/-- An operation up to its `.published` event lies `Between` the revisions from its beginning on. -/
theorem between_published {state : Validator} {uri : String} {text : Option String}
    {during own : List Happening}
    (hquiet : Between state (own ++ (during ++ [.began uri (state.revision uri + 1) text])))
    (found : List Diagnostic) :
    Between state (.published uri (state.revision uri + 1) found ::
      (own ++ (during ++ [.began uri (state.revision uri + 1) text]))) :=
  hquiet.cons_of_began ⟨rfl, fun _ => rfl⟩
    (List.mem_append_right _ (List.mem_append_right _ List.mem_cons_self))

/-- Whatever `Happens` belongs to operations that begin meanwhile. -/
theorem Happens.between {state : Validator} {record : List Happening} (h : Happens state record) :
    Between state record := by
  induction h with
  | nothing => simp [Between]
  | append _ _ ihfirst ihsecond => exact ihfirst.append ihsecond
  | finished => simp [Between, Happening.operation?]
  | quiet _ hconcludes ih => exact between_quiet ih hconcludes
  | @handed state uri text during own found call _ hconcludes _ ih ihcall =>
    rw [← replay_quiet state uri _ text] at ihcall
    have hcalled := (between_published (between_quiet ih hconcludes) found).append ihcall
    have hbegan : .began uri (state.revision uri + 1) text ∈ call.1 ++
        Happening.published uri (state.revision uri + 1) found ::
          (own ++ (during ++ [.began uri (state.revision uri + 1) text])) := by simp
    rw [handOver_append]
    exact hcalled.cons_of_began ⟨rfl, fun _ => rfl⟩ hbegan

/-! ## Events and states -/

/-- What an event stores for the document `uri`, which is nothing if it forgets the document. -/
def Happening.stores? (uri : String) : Happening → Option (Option (List Diagnostic))
  | kept other _ found => if other = uri then some (some found) else none
  | forgot other _ => if other = uri then some none else none
  | _ => none

/-- `lookup` does not find a key that is filtered out. -/
theorem Validator.lookup_filter_self {α : Type} (entries : List (String × α)) (key : String) :
    (entries.filter (·.1 != key)).lookup key = none := by
  induction entries with
  | nil => rfl
  | cons entry entries ih =>
    obtain ⟨name, value⟩ := entry
    by_cases h : name = key
    · simpa [h] using ih
    · simpa [h, List.lookup_cons, beq_false_of_ne (Ne.symm h)] using ih

/-- The entry of a document after an event is what the event `stores?` or the one before it. -/
theorem Validator.stored_effect (validator : Validator) (happening : Happening) (uri : String) :
    (happening.effect validator).stored.lookup uri =
      (happening.stores? uri).getD (validator.stored.lookup uri) := by
  cases happening with
  | kept other revision found =>
    by_cases h : other = uri
    · subst h
      simp [Happening.effect, Happening.stores?, keep, lookup_put_self]
    · simp [Happening.effect, Happening.stores?, keep, lookup_put_of_ne _ _ (Ne.symm h), h]
  | forgot other revision =>
    by_cases h : other = uri
    · subst h
      simp [Happening.effect, Happening.stores?, forget, lookup_filter_self]
    · simp [Happening.effect, Happening.stores?, forget, lookup_filter_ne _ (Ne.symm h), h]
  | _ => rfl

/-- The entry of a document after a record is what an event `stores?` last or the one before. -/
theorem Validator.stored_replay (validator : Validator) (record : List Happening) (uri : String) :
    (validator.replay record).stored.lookup uri =
      (record.findSome? (·.stores? uri)).getD (validator.stored.lookup uri) := by
  induction record with
  | nil => rfl
  | cons happening earlier ih =>
    rw [replay, stored_effect, ih, List.findSome?_cons]
    cases happening.stores? uri <;> rfl

/-- An operation that `Concludes` with something to hand over is the latest on its document, and
what it hands over is what is then known about it. -/
theorem Concludes.latest {uri : String} {revision : Nat} {state : Validator}
    {text : Option String} {during own : List Happening} {found : List Diagnostic}
    (h : Concludes uri revision state text during own (some found))
    (hclosed : during = [] → state.revision uri = revision) :
    (Happening.published uri revision found).Fits (state.replay own) := by
  have hstored : (state.replay own).diagnostics uri =
      ((own.findSome? (·.stores? uri)).getD (state.stored.lookup uri)).getD [] := by
    rw [Validator.diagnostics, Validator.stored_replay]
  cases h with
  | kept heq => exact ⟨heq.symm, by simp [hstored, Happening.stores?]⟩
  | closed => exact ⟨(hclosed rfl).symm, by simp [hstored, Happening.stores?]⟩

/-- The events with which an operation `Concludes` fit the state after its call for settings. -/
theorem Concludes.fits {uri : String} {revision : Nat} {state : Validator} {text : Option String}
    {during own : List Happening} {found : Option (List Diagnostic)}
    (h : Concludes uri revision state text during own found)
    (hle : revision ≤ state.revision uri) (hclosed : during = [] → state.revision uri = revision) :
    state.Fits own := by
  cases h with
  | failed => exact ⟨trivial, trivial⟩
  | dropped hne => exact ⟨Nat.lt_of_le_of_ne hle (Ne.symm hne), trivial, trivial⟩
  | kept heq => exact ⟨heq.symm, trivial, trivial⟩
  | closed => exact ⟨(hclosed rfl).symm, trivial⟩

/-- An operation that hands nothing over `Fits` if its call for settings does. -/
theorem fits_quiet {state : Validator} {uri : String} {text : Option String}
    {during own : List Happening} {found : Option (List Diagnostic)}
    (hduring : (state.begin uri).Fits during)
    (hconcludes : Concludes uri (state.revision uri + 1) ((state.begin uri).replay during) text
      during own found) :
    state.Fits (own ++ (during ++ [.began uri (state.revision uri + 1) text])) := by
  have hown := hconcludes.fits (begun_le state uri during)
    (by rintro rfl; exact state.revision_begin_self uri)
  rw [Validator.fits_append, Validator.fits_append, Validator.replay_append]
  exact ⟨hown, hduring, rfl, trivial⟩

/-- Whatever `Happens` agrees with the state of the validator. -/
theorem Happens.fits {state : Validator} {record : List Happening} (h : Happens state record) :
    state.Fits record := by
  induction h with
  | nothing => exact trivial
  | append _ _ ihfirst ihsecond => exact (Validator.fits_append _ _ _).mpr ⟨ihsecond, ihfirst⟩
  | finished hfits => exact ⟨hfits, trivial⟩
  | quiet _ hconcludes ih => exact fits_quiet ih hconcludes
  | @handed state uri text during own found call _ hconcludes _ ih ihcall =>
    have hpublished : (Happening.published uri (state.revision uri + 1) found).Fits
        (state.replay (own ++ (during ++ [.began uri (state.revision uri + 1) text]))) := by
      rw [replay_quiet]
      exact hconcludes.latest (by rintro rfl; exact state.revision_begin_self uri)
    rw [handOver_append]
    refine ⟨trivial, (Validator.fits_append _ _ _).mpr
      ⟨?_, hpublished, fits_quiet ih hconcludes⟩⟩
    rw [Validator.replay, replay_quiet]
    exact ihcall

/-! ## The course of an operation -/

/-- What the operation of a `revision` leaves on the record by itself, whatever its callbacks do. -/
inductive Trail (uri : String) (revision : Nat) : List Happening → Prop where
  | failed {text : String} {fault : SettingsFault} :
      Trail uri revision
        [.answered uri revision (.error fault), .began uri revision (some text)]
  | dropped {text : String} {settings : Settings} :
      Trail uri revision
        [.dropped uri revision, .answered uri revision (.ok settings),
          .began uri revision (some text)]
  | kept {text : String} {settings : Settings} :
      Trail uri revision
        [.kept uri revision (validate uri text.toList settings).diagnostics,
          .answered uri revision (.ok settings), .began uri revision (some text)]
  | keptAndHanded {text : String} {settings : Settings} {well : Bool} :
      Trail uri revision
        [.received uri revision well,
          .published uri revision (validate uri text.toList settings).diagnostics,
          .kept uri revision (validate uri text.toList settings).diagnostics,
          .answered uri revision (.ok settings), .began uri revision (some text)]
  | closed : Trail uri revision [.forgot uri revision, .began uri revision none]
  | closedAndHanded {well : Bool} :
      Trail uri revision
        [.received uri revision well, .published uri revision [], .forgot uri revision,
          .began uri revision none]

section

variable {state : Validator} {uri other : String} {text : Option String} {revision revision' : Nat}
  {record own during first second : List Happening} {found : Option (List Diagnostic)}

/-- Events that continue an operation are kept by the filter for it, and by that of no other. -/
theorem filter_of_continues (hown : ∀ happening ∈ own, happening.Continues uri revision) :
    own.filter (·.isOf other revision') =
      if uri = other ∧ revision = revision' then own else [] := by
  split
  · next h =>
    obtain ⟨rfl, rfl⟩ := h
    exact List.filter_eq_self.mpr fun happening hmem => by
      simp [Happening.isOf, (hown happening hmem).1]
  · next h =>
    exact List.filter_eq_nil_iff.mpr fun happening hmem => by
      simpa [Happening.isOf, (hown happening hmem).1] using h

/-- Where a record lies `Between` revisions, an operation that does not begin on it has left nothing
there. -/
theorem Between.filter_eq_nil (h : Between state record)
    (hnot : revision ≤ state.revision uri ∨ (state.replay record).revision uri < revision) :
    record.filter (·.isOf uri revision) = [] := by
  refine List.filter_eq_nil_iff.mpr fun happening hmem hisOf => ?_
  have hbounds := h happening hmem uri revision (beq_iff_eq.mp hisOf)
  omega

/-- Each operation on two records has its `Trail` on the one that it begins on. -/
theorem trail_append (hfirst : Between state first) (hsecond : Between (state.replay first) second)
    (h : state.revision uri < revision → revision ≤ (state.replay first).revision uri →
      Trail uri revision (first.filter (·.isOf uri revision)))
    (hmore : (state.replay first).revision uri < revision →
      revision ≤ ((state.replay first).replay second).revision uri →
        Trail uri revision (second.filter (·.isOf uri revision)))
    (hlow : state.revision uri < revision)
    (hhigh : revision ≤ (state.replay (second ++ first)).revision uri) :
    Trail uri revision ((second ++ first).filter (·.isOf uri revision)) := by
  rw [Validator.replay_append] at hhigh
  rw [List.filter_append]
  rcases Nat.lt_or_ge ((state.replay first).revision uri) revision with hlt | hle
  · rw [hfirst.filter_eq_nil (.inr hlt), List.append_nil]
    exact hmore hlt hhigh
  · rw [hsecond.filter_eq_nil (.inl hle), List.nil_append]
    exact h hlow hle

/-- Of an operation that hands nothing over, the filter keeps its own events and its beginning. -/
theorem filter_quiet (hduring : Between (state.begin uri) during)
    (hown : ∀ happening ∈ own, happening.Continues uri (state.revision uri + 1)) :
    (own ++ (during ++ [Happening.began uri (state.revision uri + 1) text])).filter
      (·.isOf uri (state.revision uri + 1)) =
        own ++ [.began uri (state.revision uri + 1) text] := by
  have hlow : state.revision uri + 1 ≤ (state.begin uri).revision uri :=
    Nat.le_of_eq (state.revision_begin_self uri).symm
  rw [List.filter_append, List.filter_append, filter_of_continues hown, if_pos ⟨rfl, rfl⟩,
    hduring.filter_eq_nil (.inl hlow)]
  simp [Happening.isOf, Happening.operation?]

/-- Of an operation that hands nothing over, the filter for another one keeps only what happened in
its call for settings. -/
theorem filter_quiet_of_ne (hown : ∀ happening ∈ own, happening.Continues uri revision)
    (hne : ¬ (uri = other ∧ revision = revision')) :
    (own ++ (during ++ [Happening.began uri revision text])).filter (·.isOf other revision') =
      during.filter (·.isOf other revision') := by
  rw [List.filter_append, List.filter_append, filter_of_continues hown, if_neg hne]
  simpa [Happening.isOf, Happening.operation?] using hne

/-- Of a `handOver`, the filter for its operation keeps the two ends, and nothing of what its call
does. -/
theorem filter_handOver {handed : List Diagnostic} {call : List Happening × Bool}
    (hcall : Between state call.1) (hle : revision ≤ state.revision uri) :
    (handOver uri revision handed call).filter (·.isOf uri revision) =
      [.received uri revision call.2, .published uri revision handed] := by
  rw [handOver, List.filter_cons, List.filter_append, hcall.filter_eq_nil (.inl hle)]
  simp [Happening.isOf, Happening.operation?]

/-- Of a `handOver`, the filter for another operation keeps only something of what its call does. -/
theorem filter_handOver_of_ne {handed : List Diagnostic} {call : List Happening × Bool}
    (hne : ¬ (uri = other ∧ revision = revision')) :
    (handOver uri revision handed call).filter (·.isOf other revision') =
      call.1.filter (·.isOf other revision') := by
  rw [handOver, List.filter_cons, List.filter_append]
  simp [Happening.isOf, Happening.operation?, hne]

end

/-- What an operation leaves when it `Concludes` raises no revision. -/
theorem Concludes.revision_replay {uri : String} {revision : Nat} {state : Validator}
    {text : Option String} {during own : List Happening} {found : Option (List Diagnostic)}
    (h : Concludes uri revision state text during own found) (other : String) :
    (state.replay own).revision other = state.revision other := by
  rw [Validator.revision_replay, begunCount, List.countP_eq_zero.mpr fun happening hmem => by
    simp [(h.continues happening hmem).2], Nat.add_zero]

/-- An operation that `Concludes` with nothing to hand over has left its `Trail`. -/
theorem Concludes.trail {uri : String} {revision : Nat} {state : Validator} {text : Option String}
    {during own : List Happening} {found : Option (List Diagnostic)}
    (h : Concludes uri revision state text during own found) :
    Trail uri revision (own ++ [.began uri revision text]) := by
  cases h with
  | failed => exact .failed
  | dropped => exact .dropped
  | kept => exact .kept
  | closed => exact .closed

/-- An operation that `Concludes` with a result has left its `Trail` when the `handOver` ends. -/
theorem Concludes.trail_handed {uri : String} {revision : Nat} {state : Validator}
    {text : Option String} {during own : List Happening} {found : List Diagnostic}
    (h : Concludes uri revision state text during own (some found)) (well : Bool) :
    Trail uri revision ([.received uri revision well, .published uri revision found] ++
      (own ++ [.began uri revision text])) := by
  cases h with
  | kept => exact .keptAndHanded
  | closed => exact .closedAndHanded

/-- An operation that has not begun when another one begins, and is not that one, begins after
it. -/
theorem begun_lt {state : Validator} {uri other : String} {revision : Nat}
    (hlow : state.revision uri < revision)
    (hne : ¬ (other = uri ∧ state.revision other + 1 = revision)) :
    (state.begin other).revision uri < revision := by
  by_cases heq : other = uri
  · subst heq
    have hraised := state.revision_begin_self other
    have hnot : state.revision other + 1 ≠ revision := fun h => hne ⟨rfl, h⟩
    omega
  · rw [state.revision_begin_of_ne (Ne.symm heq)]
    exact hlow

/-- Another operation that began in the call for settings has left its `Trail` there. -/
theorem trail_quiet_of_ne {state : Validator} {uri other : String} {text : Option String}
    {revision : Nat} {during own : List Happening} {found : Option (List Diagnostic)}
    (hconcludes : Concludes other (state.revision other + 1) ((state.begin other).replay during)
      text during own found)
    (hne : ¬ (other = uri ∧ state.revision other + 1 = revision))
    (hduring : (state.begin other).revision uri < revision →
      revision ≤ ((state.begin other).replay during).revision uri →
        Trail uri revision (during.filter (·.isOf uri revision)))
    (hlow : state.revision uri < revision)
    (hhigh : revision ≤ (state.replay
      (own ++ (during ++ [.began other (state.revision other + 1) text]))).revision uri) :
    Trail uri revision ((own ++ (during ++
      [Happening.began other (state.revision other + 1) text])).filter (·.isOf uri revision)) := by
  rw [replay_quiet, hconcludes.revision_replay] at hhigh
  rw [filter_quiet_of_ne hconcludes.continues hne]
  exact hduring (begun_lt hlow hne) hhigh

/-- Whatever `Happens`, each operation that begins leaves its `Trail`. -/
theorem Happens.trail {state : Validator} {record : List Happening} (h : Happens state record)
    {uri : String} {revision : Nat} (hlow : state.revision uri < revision)
    (hhigh : revision ≤ (state.replay record).revision uri) :
    Trail uri revision (record.filter (·.isOf uri revision)) := by
  induction h with
  | nothing => exact absurd hlow (Nat.not_lt.mpr hhigh)
  | append hfirst hsecond ihfirst ihsecond =>
    exact trail_append hfirst.between hsecond.between ihfirst ihsecond hlow hhigh
  | finished => exact absurd hlow (Nat.not_lt.mpr hhigh)
  | @quiet state other text during own found hduring hconcludes ih =>
    -- the operation at the root is the one asked about, or it is one of those nested in it
    by_cases hmine : other = uri ∧ state.revision other + 1 = revision
    · obtain ⟨rfl, rfl⟩ := hmine
      rw [filter_quiet hduring.between hconcludes.continues]
      exact hconcludes.trail
    · exact trail_quiet_of_ne hconcludes hmine ih hlow hhigh
  | @handed state other text during own found call hduring hconcludes hcall ih ihcall =>
    by_cases hmine : other = uri ∧ state.revision other + 1 = revision
    · obtain ⟨rfl, rfl⟩ := hmine
      -- operations that begin in the call of the hand-over have later revisions
      have hafter : state.revision other + 1 ≤
          (((state.begin other).replay during).replay own).revision other := by
        rw [hconcludes.revision_replay]
        exact begun_le state other during
      rw [List.filter_append, filter_handOver hcall.between hafter,
        filter_quiet hduring.between hconcludes.continues]
      exact hconcludes.trail_handed _
    · have hquiet := (Happens.quiet hduring hconcludes).between
      have hcalled := hcall.between
      rw [← replay_quiet state other _ text] at hcalled ihcall
      rw [List.filter_append, filter_handOver_of_ne hmine, ← List.filter_append]
      refine trail_append hquiet hcalled (trail_quiet_of_ne hconcludes hmine ih) ihcall hlow ?_
      rw [handOver_append, Validator.replay, Validator.replay_append] at hhigh
      rw [Validator.replay_append]
      exact hhigh

/-! ## The order of hand-overs -/

/-- The revisions that are handed over for the document `uri`, the latest first. -/
def handedOver (uri : String) (record : List Happening) : List Nat :=
  record.filterMap (·.handedOver? uri)

/-- Where a record lies `Between` revisions, `handedOver` gives only revisions of operations that
begin on it. -/
theorem Between.of_mem_handedOver {state : Validator} {record : List Happening}
    (h : Between state record) {uri : String} {revision : Nat}
    (hmem : revision ∈ handedOver uri record) :
    state.revision uri < revision ∧ revision ≤ (state.replay record).revision uri := by
  obtain ⟨happening, hhappening, hhanded⟩ := List.mem_filterMap.mp hmem
  refine h happening hhappening uri revision ?_
  cases happening <;> simp only [Happening.handedOver?, reduceCtorEq] at hhanded
  split at hhanded
  · next heq =>
    cases hhanded
    rw [Happening.operation?, heq]
  · cases hhanded

/-- `handedOver` is in order on two records if it is on each. -/
theorem handedOver_pairwise_append {state : Validator} {first second : List Happening}
    {uri : String} (hfirst : Between state first) (hsecond : Between (state.replay first) second)
    (h : (handedOver uri first).Pairwise (· > ·))
    (hmore : (handedOver uri second).Pairwise (· > ·)) :
    (handedOver uri (second ++ first)).Pairwise (· > ·) := by
  unfold handedOver
  rw [List.filterMap_append, List.pairwise_append]
  refine ⟨hmore, h, fun later hlater earlier hearlier => ?_⟩
  exact Nat.lt_of_le_of_lt (hfirst.of_mem_handedOver hearlier).2
    (hsecond.of_mem_handedOver hlater).1

/-- An operation that hands nothing over hands over what its call for settings does. -/
theorem handedOver_quiet {state : Validator} {uri other : String} {revision : Nat}
    {text : Option String} {during own : List Happening} {found : Option (List Diagnostic)}
    (h : Concludes other revision state text during own found) :
    handedOver uri (own ++ (during ++ [.began other revision text])) = handedOver uri during := by
  cases h <;> simp [handedOver, Happening.handedOver?]

/-- In the call of an operation that `Concludes` with a result, nothing is handed over for its
document. -/
theorem handedOver_eq_nil {state : Validator} {uri : String} {text : Option String}
    {during own : List Happening} {found : List Diagnostic}
    (hduring : Between (state.begin uri) during)
    (hconcludes : Concludes uri (state.revision uri + 1) ((state.begin uri).replay during) text
      during own (some found)) :
    handedOver uri during = [] := by
  have hlatest := (hconcludes.latest (by rintro rfl; exact state.revision_begin_self uri)).1
  rw [hconcludes.revision_replay] at hlatest
  refine List.eq_nil_iff_forall_not_mem.mpr fun revision hmem => ?_
  have hbounds := hduring.of_mem_handedOver hmem
  have hbegun := state.revision_begin_self uri
  omega

/-- Whatever `Happens`, later revisions are handed over later. -/
theorem Happens.handedOver_pairwise {state : Validator} {record : List Happening}
    (h : Happens state record) (uri : String) : (handedOver uri record).Pairwise (· > ·) := by
  induction h with
  | nothing => exact .nil
  | append hfirst hsecond ihfirst ihsecond =>
    exact handedOver_pairwise_append hfirst.between hsecond.between ihfirst ihsecond
  | finished => exact .nil
  | quiet _ hconcludes ih => exact (handedOver_quiet hconcludes).symm ▸ ih
  | @handed state other text during own found call hduring hconcludes hcall ih ihcall =>
    have hpublished := between_published (between_quiet hduring.between hconcludes) found
    have hcalled := hcall.between
    rw [← replay_quiet state other _ text] at hcalled
    rw [handOver_append]
    refine handedOver_pairwise_append hpublished hcalled ?_ ihcall
    have hbefore : handedOver uri
        (own ++ (during ++ [.began other (state.revision other + 1) text])) =
          handedOver uri during := handedOver_quiet hconcludes
    -- an operation that hands something over is the latest, so nothing was handed over during it
    by_cases heq : other = uri
    · subst heq
      rw [handedOver_eq_nil hduring.between hconcludes] at hbefore
      unfold handedOver at hbefore ⊢
      rw [List.filterMap_cons_some (by simp [Happening.handedOver?]; rfl), hbefore]
      exact List.pairwise_singleton _ _
    · unfold handedOver at hbefore ih ⊢
      rw [List.filterMap_cons_none (by simp [Happening.handedOver?, heq]), hbefore]
      exact ih

end NeutronLang
