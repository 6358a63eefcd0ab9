import NeutronLang.Json.Basic
import NeutronLang.Decimal.Layout
import NeutronLang.Text.Quoted

/-!
# Values in messages

The form in which a message about a setting shows the value that it was given.
-/

namespace NeutronLang.Json

/-- How messages write doubles. -/
def shownDoubles : Decimal.Layout := ⟨-4, 16, 2, "inf", "nan"⟩

mutual

/--
A value as messages show it: quoted texts, capitalised constants, lists and mappings in order.
-/
def shown : Json → String
  | null => "None"
  | bool true => "True"
  | bool false => "False"
  | int value => toString value
  | double value => shownDoubles.write value
  | text value => Text.quoted value
  | list items => "[" ++ shownItems items ++ "]"
  | object members => "\x7b" ++ shownMembers members ++ "\x7d"

/-- The items of a list, each as `shown`, with commas between them. -/
def shownItems : List Json → String
  | [] => ""
  | [item] => shown item
  | item :: items => shown item ++ ", " ++ shownItems items

/-- The members of a mapping, each value as `shown`, with commas between them. -/
def shownMembers : List (String × Json) → String
  | [] => ""
  | [(name, value)] => Text.quoted name ++ ": " ++ shown value
  | (name, value) :: members =>
    Text.quoted name ++ ": " ++ shown value ++ ", " ++ shownMembers members

end

end NeutronLang.Json
