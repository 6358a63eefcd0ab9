import NeutronLang.Grammar.Statement
import NeutronLang.Token.Lexer

/-!
# Documents

From the text of a document to its syntax tree. Only a string that is never closed keeps a document
from having one; all other errors are found on the way and listed with the tree.
-/

namespace NeutronLang

/-- What `readDocument` gives: the tree of a document and the record of how it was read. -/
structure Reading where
  /-- How many tokens there are; in a blank document they are not looked for. -/
  tokenCount : Option Nat
  program : Node
  events : List Event

namespace Reading

/-- The syntax errors of a document (`Event.error?`), in the order in which they were found. -/
def errors (reading : Reading) : List SyntaxError := reading.events.filterMap Event.error?

/-- The statements of a document, from under its `program`. -/
def statements (reading : Reading) : List Node :=
  match reading.program with
  | .program _ statements _ => statements
  | _ => []

/--
Whether the text of a document has a place where each statement without its semicolon ends. Tokens
that were not read from the text may lie too far before its start.
-/
def liesIn (reading : Reading) (text : List Char) : Bool :=
  reading.events.all fun
    | .unterminated error _ => Text.hasPlace text error.span.start
    | _ => true

/-- The reading of tokens by `Grammar.program`, whatever they come from. -/
def ofTokens (text : List Char) (tokens : List Token) : Reading :=
  let outcome := Grammar.program text tokens
  ⟨some tokens.length, outcome.value, outcome.events⟩

/-- The reading of a blank document, in which no tokens are looked for. -/
def blank (text : List Char) : Reading := ⟨none, .program (.between 0 text.length) [] [], []⟩

end Reading

/-- Reads a document: `tokenize` and then `ofTokens`, unless the text is blank. -/
def readDocument (text : List Char) : Except OpenString Reading :=
  if Text.isBlankText text then .ok (.blank text)
  else (tokenize text).map (Reading.ofTokens text)

end NeutronLang
