/-!
# JSON values

The values that reports are written in and that settings arrive in. The members of an object keep
their order, and an integer is told from a double.
-/

namespace NeutronLang

/-- A JSON value, written on one line by `Json.line` and, over several lines, by `Json.lines`. -/
inductive Json where
  | null
  | bool (value : Bool)
  | int (value : Int)
  | double (value : Float)
  | text (value : String)
  | list (items : List Json)
  | object (members : List (String × Json))

namespace Json

/-- The integer of a natural number. -/
def nat (n : Nat) : Json := int n

/-- A text, or `null` where there is none. -/
def optionalText : Option String → Json
  | none => null
  | some value => text value

/-- What the object with `members` has under `name`, if anything. -/
def find? (members : List (String × Json)) (name : String) : Option Json :=
  (members.find? (·.1 == name)).map (·.2)

mutual

/-- How many lists and objects of a value stand one inside the other. -/
def depth : Json → Nat
  | list items => depthOfItems items + 1
  | object members => depthOfMembers members + 1
  | null | bool _ | int _ | double _ | text _ => 0

/-- The `depth` of the deepest of some items. -/
def depthOfItems : List Json → Nat
  | [] => 0
  | item :: items => max (depth item) (depthOfItems items)

/-- The `depth` of the deepest of the values of some members. -/
def depthOfMembers : List (String × Json) → Nat
  | [] => 0
  | (_, value) :: members => max (depth value) (depthOfMembers members)

end

end Json

end NeutronLang
