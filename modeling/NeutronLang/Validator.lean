import NeutronLang.Diagnostic

/-!
# Validators

What a validator keeps about the documents of an editor: for each document how often a validation
or a close has begun, and the diagnostics of the latest validation. A result counts only if
nothing has begun for its document in the meantime, so that the latest always wins.
-/

namespace NeutronLang

/-- The state of a validator. A document that has no entry in `stored` was never validated, or is
closed. -/
structure Validator where
  revisions : List (String × Nat)
  stored : List (String × List Diagnostic)
deriving DecidableEq

namespace Validator

/-- A list of entries with the entry of `key` replaced, or put in. -/
def put {α : Type} (entries : List (String × α)) (key : String) (value : α) : List (String × α) :=
  (key, value) :: entries.filter (·.1 != key)

/-- The state at the start. -/
def empty : Validator := ⟨[], []⟩

/-- How often a validation or a close of a document has begun, counted in `revisions`. -/
def revision (validator : Validator) (uri : String) : Nat :=
  (validator.revisions.lookup uri).getD 0

/-- The diagnostics `stored` for a document; there are none if it was never validated. -/
def diagnostics (validator : Validator) (uri : String) : List Diagnostic :=
  (validator.stored.lookup uri).getD []

/-- Begins a validation or a close of a document, which gives it a new `revision`. -/
def begin (validator : Validator) (uri : String) : Validator :=
  { validator with revisions := put validator.revisions uri (validator.revision uri + 1) }

/-- Keeps the result `found` of a validation. -/
def keep (validator : Validator) (uri : String) (found : List Diagnostic) : Validator :=
  { validator with stored := put validator.stored uri found }

/-- Forgets what is `stored` about a document. -/
def forget (validator : Validator) (uri : String) : Validator :=
  { validator with stored := validator.stored.filter (·.1 != uri) }

/-- `lookup` finds an entry that was just `put` in. -/
theorem lookup_put_self {α : Type} (entries : List (String × α)) (key : String) (value : α) :
    (put entries key value).lookup key = some value := by
  simp [put]

/-- `lookup` still finds an entry when those of another key are filtered out. -/
theorem lookup_filter_ne {α : Type} (entries : List (String × α)) {key other : String}
    (h : other ≠ key) : (entries.filter (·.1 != key)).lookup other = entries.lookup other := by
  induction entries with
  | nil => rfl
  | cons entry entries ih =>
    obtain ⟨name, value⟩ := entry
    by_cases e : name = key
    · subst e
      simp [List.lookup_cons, ih, beq_false_of_ne h]
    · simp [List.lookup_cons, ih, e]

/-- `put` leaves the entries of other keys alone. -/
theorem lookup_put_of_ne {α : Type} (entries : List (String × α)) {key other : String} (value : α)
    (h : other ≠ key) : (put entries key value).lookup other = entries.lookup other := by
  simp [put, List.lookup_cons, beq_false_of_ne h, lookup_filter_ne entries h]

/-- `begin` raises the revision of its document by one. -/
theorem revision_begin_self (validator : Validator) (uri : String) :
    (validator.begin uri).revision uri = validator.revision uri + 1 := by
  simp [begin, revision, lookup_put_self]

/-- `begin` leaves the revisions of other documents alone. -/
theorem revision_begin_of_ne (validator : Validator) {uri other : String} (h : other ≠ uri) :
    (validator.begin uri).revision other = validator.revision other := by
  simp [begin, revision, lookup_put_of_ne _ _ h]

end Validator

end NeutronLang
