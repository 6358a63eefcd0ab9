import NeutronLang.Json.Shown

/-!
# Settings

What an editor may set for a document. Settings arrive as a mapping, or inside a mapping under the
name of the language; names that are not known are passed over, and the first known one with a value
of the wrong kind is an error.
-/

namespace NeutronLang

/-- The settings of a validation; `Settings.standard` are those in force where none are given. -/
structure Settings where
  /-- Whether documents are checked at all. -/
  enabled : Bool
  /-- How many problems are reported at most. -/
  maxProblems : Nat
  /-- Whether constructs have variables of their own. -/
  nested : Bool
deriving DecidableEq

/-- What settings can be wrong with, as `Settings.ofJson` finds. -/
inductive SettingsFault where
  /-- The settings are no mapping. -/
  | notMapping
  /-- The settings under the name of the language are no mapping. -/
  | sectionNotMapping
  | wrongType (key expected : String) (value : Json)
  | negative (key : String) (value : Int)

/-- The message about wrong settings, where there is one to give, for callers that print it. -/
def SettingsFault.message? : SettingsFault → Option String
  | notMapping => none
  | sectionNotMapping => some "neutron settings must be a mapping"
  | wrongType key expected value =>
    some s!"neutron.{key} must be of type {expected}, got {value.shown}"
  | negative key value => some s!"neutron.{key} must not be negative, got {value}"

namespace Settings

/-- The settings of a document for which nothing is set. -/
def standard : Settings := ⟨true, 1000, false⟩

/-- A setting that is on or off, or `standard` if it is not given. -/
def switch (members : List (String × Json)) (key : String) (standard : Bool) :
    Except SettingsFault Bool :=
  match Json.find? members key with
  | none => .ok standard
  | some (.bool value) => .ok value
  | some value => .error (.wrongType key "bool" value)

/-- A setting that counts something, or `standard` if it is not given. -/
def count (members : List (String × Json)) (key : String) (standard : Nat) :
    Except SettingsFault Nat :=
  match Json.find? members key with
  | none => .ok standard
  | some (.int value) => if value < 0 then .error (.negative key value) else .ok value.toNat
  | some value => .error (.wrongType key "int" value)

/-- The settings that the `members` of a mapping give. -/
def ofMembers (members : List (String × Json)) : Except SettingsFault Settings := do
  let enabled ← switch members "enableTypeChecking" standard.enabled
  let maxProblems ← count members "maxNumberOfProblems" standard.maxProblems
  let nested ← switch members "scopedSymbols" standard.nested
  return ⟨enabled, maxProblems, nested⟩

/-- Reads settings: a mapping, a mapping that holds one under the language's name, or nothing. -/
def ofJson : Json → Except SettingsFault Settings
  | .null => .ok standard
  | .object members =>
    match Json.find? members "neutron" with
    | none => ofMembers members
    | some .null => .ok standard
    | some (.object inner) => ofMembers inner
    | some _ => .error .sectionNotMapping
  | _ => .error .notMapping

end Settings

end NeutronLang
