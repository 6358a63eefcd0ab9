import NeutronLang.Json.Basic
import NeutronLang.Decimal.Layout
import NeutronLang.Text.Quoted

/-!
# Written JSON

JSON in ASCII, on one line or spread over lines with two spaces a level. Other characters are
escaped by their UTF-16 units.
-/

namespace NeutronLang.Json

/-- How JSON writes doubles; infinity and not-a-number have names. -/
def doubles : Decimal.Layout := ⟨-4, 16, 2, "Infinity", "NaN"⟩

/-- A UTF-16 unit as an escape. -/
def unitEscape (unit : Nat) : List Char := '\\' :: 'u' :: Text.hex 4 unit

/-- How one character stands inside a written text. -/
def escaped (c : Char) : List Char :=
  if c == Text.doubleQuote || c == '\\' then ['\\', c]
  else if c == '\n' then ['\\', 'n']
  else if c == '\r' then ['\\', 'r']
  else if c == '\t' then ['\\', 't']
  else if c == '\x08' then ['\\', 'b']
  else if c == '\x0c' then ['\\', 'f']
  else if 0x20 ≤ c.toNat && c.toNat < 0x7f then [c]
  else if c.toNat < 0x10000 then unitEscape c.toNat
  else
    let offset := c.toNat - 0x10000
    unitEscape (0xd800 + offset / 0x400) ++ unitEscape (0xdc00 + offset % 0x400)

/-- A text in quotes. -/
def writeText (value : String) : List Char :=
  Text.doubleQuote :: value.toList.flatMap escaped ++ [Text.doubleQuote]

/-- What separates the items of a list or the members of an object on one line. -/
def separator : List Char := [',', ' ']

mutual

/-- A value on one line, with a `separator` between items and between members. -/
def compact : Json → List Char
  | null => "null".toList
  | bool true => "true".toList
  | bool false => "false".toList
  | int value => (toString value).toList
  | double value => (doubles.write value).toList
  | text value => writeText value
  | list items => '[' :: compactItems items ++ [']']
  | object members => '\x7b' :: compactMembers members ++ ['\x7d']

/-- The items of a list on one line. -/
def compactItems : List Json → List Char
  | [] => []
  | [item] => compact item
  | item :: items => compact item ++ separator ++ compactItems items

/-- The members of an object on one line. -/
def compactMembers : List (String × Json) → List Char
  | [] => []
  | [(name, value)] => writeText name ++ ':' :: ' ' :: compact value
  | (name, value) :: members =>
    writeText name ++ ':' :: ' ' :: compact value ++ separator ++ compactMembers members

end

/-- A new line at `depth`. -/
def newLine (depth : Nat) : List Char := '\n' :: List.replicate (2 * depth) ' '

mutual

/-- A value spread over lines, the containers inside it at `depth`. -/
def pretty (depth : Nat) : Json → List Char
  | list [] => ['[', ']']
  | list (item :: items) =>
    '[' :: newLine (depth + 1) ++ pretty (depth + 1) item ++ prettyItems depth items
  | object [] => ['\x7b', '\x7d']
  | object ((name, value) :: members) =>
    '\x7b' :: newLine (depth + 1) ++ writeText name ++ ':' :: ' ' :: pretty (depth + 1) value
      ++ prettyMembers depth members
  | null => "null".toList
  | bool true => "true".toList
  | bool false => "false".toList
  | int value => (toString value).toList
  | double value => (doubles.write value).toList
  | text value => writeText value

/-- The further items of a list and its end, after those that `pretty` has begun with. -/
def prettyItems (depth : Nat) : List Json → List Char
  | [] => newLine depth ++ [']']
  | item :: items =>
    ',' :: newLine (depth + 1) ++ pretty (depth + 1) item ++ prettyItems depth items

/-- The further members of an object and its end, after those that `pretty` has begun with. -/
def prettyMembers (depth : Nat) : List (String × Json) → List Char
  | [] => newLine depth ++ ['\x7d']
  | (name, value) :: members =>
    ',' :: newLine (depth + 1) ++ writeText name ++ ':' :: ' ' :: pretty (depth + 1) value
      ++ prettyMembers depth members

end

/-- The text of a value on one line, as `compact` writes it. -/
def line (value : Json) : String := String.ofList value.compact

/-- The text of a value spread over lines, as `pretty` writes it. -/
def lines (value : Json) : String := String.ofList (value.pretty 0)

end NeutronLang.Json
