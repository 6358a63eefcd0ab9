import NeutronLang.Text.Quoted

/-!
# Type tags

The types that the checker tells apart, and which of them may be stored where another is declared.
-/

namespace NeutronLang

/-- The type of a value or a variable, as far as it is known; what is not is `any`. -/
inductive TypeTag where
  | int
  | float
  | string
  | bool
  | array
  | object
  | any
  | nil
deriving DecidableEq

namespace TypeTag

/-- The name of a tag. -/
def name : TypeTag → String
  | int => "int"
  | float => "float"
  | string => "string"
  | bool => "bool"
  | array => "array"
  | object => "object"
  | any => "any"
  | nil => "nil"

/-- All tags. -/
def all : List TypeTag := [int, float, string, bool, array, object, any, nil]

/-- The tag with a name. -/
def ofName? (name : String) : Option TypeTag := all.find? (·.name == name)

/--
Whether a value of type `actual` may be stored where `expected` is declared: the same type, any type
on either side, an integer for a float, and nil everywhere.
-/
def accepts (expected actual : TypeTag) : Bool :=
  expected == actual || expected == any || actual == any || (expected == float && actual == int)
    || actual == nil

end TypeTag

/-- Something that is taken for a name of a kind but is none, as `TypeTag.ofName` and
`ScopeKind.ofName` report it. -/
inductive UnknownName where
  | typeTag (shown : String)
  | scopeKind (shown : String)
deriving DecidableEq

/-- The message about an unknown name, for callers that a check or a table has failed. -/
def UnknownName.message : UnknownName → String
  | typeTag shown => s!"{shown} is not a valid TypeTag"
  | scopeKind shown => s!"{shown} is not a valid ScopeKind"

/-- The tag with a name, which has to be one, else an `UnknownName`. -/
def TypeTag.ofName (name : String) : Except UnknownName TypeTag :=
  match ofName? name with
  | some tag => .ok tag
  | none => .error (.typeTag (Text.quoted name))

end NeutronLang
