import NeutronLang.Typing.Tag

/-!
# Symbol tables

The variables that are known at a place in a document. A flat table has one scope for the whole
document; a nested one opens a scope for each construct that has its own variables, and looks from
the innermost scope outwards. Scopes are kept as a list that ends with the scope of the document,
so that one is always open.
-/

namespace NeutronLang

/-- A variable that is known: its `name`, its `type`, and the offset where it was declared. -/
structure Symbol where
  name : String
  type : TypeTag
  /-- Where its declaration starts, if that is known. -/
  offset : Option Int
deriving DecidableEq

/-- A symbol in short, for callers that print it. -/
def Symbol.text (symbol : Symbol) : String := s!"{symbol.name}: {symbol.type.name}"

/-- What a `Scope` belongs to. -/
inductive ScopeKind where
  | document
  | block
  | function
  | classBody
  | loop
deriving DecidableEq

namespace ScopeKind

/-- The name of a kind of scope. -/
def name : ScopeKind → String
  | document => "document"
  | block => "block"
  | function => "function"
  | classBody => "class"
  | loop => "loop"

/-- All kinds of scopes. -/
def all : List ScopeKind := [document, block, function, classBody, loop]

/-- The kind of scope with a name, which has to be one, for callers that open scopes by name. The
checker opens its scopes by `ScopeKind` itself. -/
def ofName (name : String) : Except UnknownName ScopeKind :=
  match all.find? (·.name == name) with
  | some kind => .ok kind
  | none => .error (.scopeKind (Text.quoted name))

end ScopeKind

/-- The variables of one scope, no two of a name; `Scope.define` keeps it so. -/
structure Scope where
  kind : ScopeKind
  symbols : List Symbol
deriving DecidableEq

namespace Scope

/-- The scope without variables. -/
def empty (kind : ScopeKind) : Scope := ⟨kind, []⟩

/-- The variable of a name. -/
def find? (scope : Scope) (name : String) : Option Symbol :=
  scope.symbols.find? (·.name == name)

/-- The scope with `symbol` in the place of any other of its name. -/
def define (scope : Scope) (symbol : Symbol) : Scope :=
  { scope with symbols := symbol :: scope.symbols.filter (·.name != symbol.name) }

/-- `find?` finds a variable that was just defined. -/
theorem find?_define_self (scope : Scope) (symbol : Symbol) :
    (scope.define symbol).find? symbol.name = some symbol := by
  simp [find?, define]

/-- `find?` finds variables of other names as before. -/
theorem find?_define_of_ne (scope : Scope) (symbol : Symbol) {name : String}
    (h : symbol.name ≠ name) : (scope.define symbol).find? name = scope.find? name := by
  simp only [find?, define, List.find?_cons_of_neg, beq_iff_eq, h, not_false_eq_true]
  rw [List.find?_filter]
  congr 1
  funext other
  by_cases e : other.name = name
  · simp [e, Ne.symm h]
  · simp [e]

end Scope

/-- The variables that are known: the `inner` scopes, innermost first, and that of the document. -/
structure SymbolTable where
  /-- Whether constructs have scopes of their own. -/
  nested : Bool
  inner : List Scope
  document : Scope
deriving DecidableEq

namespace SymbolTable

/-- The table without variables. -/
def empty (nested : Bool) : SymbolTable := ⟨nested, [], .empty .document⟩

/-- The open scopes, innermost first: those `inner`, and that of the document. -/
def scopes (table : SymbolTable) : List Scope := table.inner ++ [table.document]

/-- The innermost scope. -/
def current (table : SymbolTable) : Scope := table.inner.head?.getD table.document

/-- How many scopes are open besides that of the `document`. -/
def depth (table : SymbolTable) : Nat := table.inner.length

/-- Opens a scope; a table that is not `nested` stays as it is. -/
def enter (table : SymbolTable) (kind : ScopeKind) : SymbolTable :=
  if table.nested then { table with inner := .empty kind :: table.inner } else table

/-- Closes the innermost scope, but never that of the `document`. -/
def exit (table : SymbolTable) : SymbolTable :=
  if table.nested then { table with inner := table.inner.tail } else table

/-- Defines `symbol` in the innermost scope. -/
def define (table : SymbolTable) (symbol : Symbol) : SymbolTable :=
  match table.inner with
  | [] => { table with document := table.document.define symbol }
  | scope :: outer => { table with inner := scope.define symbol :: outer }

/-- The variable of a name in the innermost of the `scopes` that has one. -/
def lookup? (table : SymbolTable) (name : String) : Option Symbol :=
  table.scopes.findSome? (·.find? name)

/-- The type of a variable, if it is known. -/
def typeOf? (table : SymbolTable) (name : String) : Option TypeTag :=
  (table.lookup? name).map (·.type)

/-- `exit` undoes `enter`. -/
theorem exit_enter (table : SymbolTable) (kind : ScopeKind) : (table.enter kind).exit = table := by
  obtain ⟨nested, inner, document⟩ := table
  cases nested <;> rfl

end SymbolTable

end NeutronLang
