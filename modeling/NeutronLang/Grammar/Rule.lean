import NeutronLang.Node.Basic

/-!
# Grammar rules

A rule reads a phrase from a cursor. It answers with the phrase and the cursor after it, or fails
at the cursor where it cannot go on; it does nothing else, so a rule reads the same wherever it is
used. The rules here read single tokens and lists. Those that cannot fail are stated for every
kind of reading, since statements are read with a record of what happens to the tokens.
-/

namespace NeutronLang

namespace Cursor

/-- Takes the next token if it is one of the `wanted` ones. -/
def accept (cursor : Cursor) (wanted : Token → Bool) : Option Token × Cursor :=
  match cursor.next? with
  | some token => if wanted token then (some token, cursor.advance) else (none, cursor)
  | none => (none, cursor)

end Cursor

/-- A token as an `identifier` node. -/
def Token.node (token : Token) : Node := .identifier token.span token.lexeme

/-- A rule of the grammar that reads an `α`. -/
abbrev Rule (α : Type) := StateT Cursor (Except Failure) α

namespace Rule

section

variable {m : Type → Type} [Monad m]

/-- The next token, which is left where it is. -/
def next? : StateT Cursor m (Option Token) := fun cursor => pure (cursor.next?, cursor)

/-- Whether the next token has the text `lexeme`. -/
def sees (lexeme : String) : StateT Cursor m Bool := fun cursor => pure (cursor.sees lexeme, cursor)

/-- Reads one token, whatever it is. -/
def skip : StateT Cursor m Unit := fun cursor => pure ((), cursor.advance)

/-- Reads the next token if it is one of the `wanted` ones. -/
def accept (wanted : Token → Bool) : StateT Cursor m (Option Token) := fun cursor =>
  pure (cursor.accept wanted)

/-- Reads the next token if it has the text `lexeme`. -/
def acceptText (lexeme : String) : StateT Cursor m (Option Token) := accept (·.lexeme == lexeme)

end

/-- Fails with `Failure.unexpected`, because no expression starts here. -/
def unexpected {α : Type} : Rule α := fun cursor => .error cursor.unexpected

/-- Fails with `Failure.missing`, because what is `wanted` is missing here. -/
def missing {α : Type} (wanted : Wanted) : Rule α := fun cursor => .error (cursor.missing wanted)

/-- Reads the next token, which has to be `accepted`. -/
def require (accepted : Token → Bool) (wanted : Wanted) : Rule Token := do
  match ← accept accepted with
  | some token => pure token
  | none => missing wanted

/-- Reads the next token, which has to have the text `lexeme`. -/
def expect (lexeme : String) (wanted : Wanted) : Rule Token := require (·.lexeme == lexeme) wanted

/-- Reads a name, which has to be an identifier that is not reserved. -/
def name (wanted : Wanted) : Rule Node := do
  let token ← require (·.isIdentifier) wanted
  return token.node

/-- Reads further items, each after a comma, at most `bound` of them. -/
def moreItems {α : Type} (item : Rule α) : (bound : Nat) → Rule (List α)
  | 0 => pure []
  | bound + 1 => do
    match ← acceptText "," with
    | none => pure []
    | some _ =>
      let first ← item
      return first :: (← moreItems item bound)

/-- Reads items between commas, which may be none before the token `close`. -/
def itemsBefore {α : Type} (bound : Nat) (item : Rule α) (close : String) : Rule (List α) := do
  if ← sees close then return []
  let first ← item
  return first :: (← moreItems item bound)

/-- Reads items between commas and the token `close` after them, which is part of the answer. -/
def items {α : Type} (bound : Nat) (item : Rule α) (close : String) (wanted : Wanted) :
    Rule (List α × Token) := do
  let found ← itemsBefore bound item close
  return (found, ← expect close wanted)

end Rule

end NeutronLang
