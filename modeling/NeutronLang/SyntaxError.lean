import NeutronLang.Cursor
import NeutronLang.Problem

/-!
# Syntax errors

What can be wrong with the tokens of a document, and what is then reported. A `Fault` is the
cause; a `Failure` is a fault at a cursor, where a reader has to give up; a `SyntaxError` is what
remains of either on the list of the document's errors.
-/

namespace NeutronLang

/-- What a reader was looking for in vain. `Wanted.message` says so in the words of its error. -/
inductive Wanted where
  | variableName
  | functionName
  | className
  | memberName
  | propertyKey
  | openParen (keyword : String)
  | functionOpenParen
  | ifCloseParen
  | whileCloseParen
  | forCloseParen
  | parametersCloseParen
  | expressionCloseParen
  | callCloseParen
  | initSemicolon
  | testSemicolon
  | classBody
  | arrayEnd
  | objectEnd
  | propertyColon
  /-- Anything else, in the words of its message, for callers with rules of their own. -/
  | described (message : String)
deriving DecidableEq

/-- The message about what is wanted. -/
def Wanted.message : Wanted → String
  | variableName => "Expected variable name in declaration"
  | functionName => "Expected function name after 'fun'"
  | className => "Expected class name after 'class'"
  | memberName => "Expected identifier after '.'"
  | propertyKey => "Expected string key for object property"
  | openParen keyword => s!"Expected '(' after '{keyword}'"
  | functionOpenParen => "Expected '(' after function name"
  | ifCloseParen => "Expected ')' after if condition"
  | whileCloseParen => "Expected ')' after while condition"
  | forCloseParen => "Expected ')' after for update"
  | parametersCloseParen => "Expected ')' after function parameters"
  | expressionCloseParen => "Expected ')' after expression"
  | callCloseParen => "Expected ')' to close function call"
  | initSemicolon => "Expected ';' after for init"
  | testSemicolon => "Expected ';' after for test"
  | classBody => "Expected '\x7b' to start class body"
  | arrayEnd => "Expected ']' to close array"
  | objectEnd => "Expected '\x7d' to close object"
  | propertyColon => "Expected ':' after object property key"
  | described message => message

/-- What a semicolon ends: the statement that `Fault.missingSemicolon` is about. -/
inductive Clause where
  | variableDeclaration
  | assignment
  | statement
  /-- Anything else, by its name, for callers with rules of their own. -/
  | described (name : String)
deriving DecidableEq

/-- The name of what a semicolon ends. -/
def Clause.name : Clause → String
  | variableDeclaration => "variable declaration"
  | assignment => "assignment"
  | statement => "statement"
  | described name => name

/-- What is wrong at some place among the tokens; `Fault.message`, `Fault.code` and `Fault.help?`
tell it. -/
inductive Fault where
  /-- No expression starts with this token. -/
  | unexpectedToken (lexeme : String)
  /-- The tokens end where an expression should start. -/
  | unexpectedEnd
  /-- Another token stands where a certain one is required. -/
  | missing (wanted : Wanted)
  /-- The tokens end where a certain one is required. -/
  | missingAtEnd (wanted : Wanted)
  /-- The semicolon is missing, which ends nothing early. -/
  | missingSemicolon (after : Clause)
deriving DecidableEq

namespace Fault

/-- The message about a fault. -/
def message : Fault → String
  | unexpectedToken lexeme => s!"Unexpected token '{lexeme}'"
  | unexpectedEnd => "Unexpected end of input"
  | missing wanted => wanted.message
  | missingAtEnd wanted => wanted.message
  | missingSemicolon after => s!"Missing semicolon at end of {after.name}"

/-- The code of a fault. Those at the end of the tokens share `P010`. -/
def code : Fault → String
  | unexpectedToken _ => "P001"
  | missing _ => "P002"
  | missingSemicolon _ => "P003"
  | unexpectedEnd => "P010"
  | missingAtEnd _ => "P010"

/-- The advice on a fault, where there is some. -/
def help? : Fault → Option String
  | unexpectedEnd => some "The file ended in the middle of an expression."
  | missingSemicolon _ => some "Add a semicolon ';' to end the statement"
  | _ => none

end Fault

/-- An error on the list of a document's syntax errors; its `SyntaxError.problem` is what is
shown. -/
structure SyntaxError where
  fault : Fault
  span : Span
  /-- The token at fault. A missing semicolon has none, nor has a document without tokens. -/
  token : Option Token
  /-- The index of the next token when the fault was found; a missing semicolon has none. -/
  index : Option Int
deriving DecidableEq

namespace SyntaxError

/-- The `Problem` that an error is. -/
def problem (error : SyntaxError) : Problem where
  message := error.fault.message
  span := error.span
  code := some error.fault.code
  help := error.fault.help?

/-- The error of a `fault` at `index`, reported on a token. -/
def onToken (fault : Fault) (token : Option Token) (index : Int) : SyntaxError where
  fault := fault
  span := (token.map (·.span)).getD (.point 0)
  token := token
  index := some index

/-- The error of a semicolon that is missing from `start` to `stop`. -/
def missingSemicolon (after : Clause) (start stop : Int) : SyntaxError where
  fault := .missingSemicolon after
  span := .between start stop
  token := none
  index := none

end SyntaxError

/-- A `Fault` at the place where a reader gives up. It is reported as `Failure.error`. -/
structure Failure where
  fault : Fault
  cursor : Cursor
deriving DecidableEq

/-- The error that a failure leaves behind, on the `offender?` of its place. -/
def Failure.error (failure : Failure) : SyntaxError :=
  .onToken failure.fault failure.cursor.offender? failure.cursor.index

namespace Cursor

/-- The failure of a reader that finds no expression at `cursor`. -/
def unexpected (cursor : Cursor) : Failure where
  fault := match cursor.next? with
    | some token => .unexpectedToken token.lexeme
    | none => .unexpectedEnd
  cursor := cursor

/-- The failure of a reader that does not find what is `wanted` at `cursor`. -/
def missing (cursor : Cursor) (wanted : Wanted) : Failure where
  fault := if cursor.atEnd then .missingAtEnd wanted else .missing wanted
  cursor := cursor

end Cursor

namespace Bookmark

/-- The error of a required token that is missing at the index, for callers with rules of their own.
It is placed as `Cursor.missing` places it. -/
def missing (mark : Bookmark) (wanted : Wanted) : SyntaxError :=
  .onToken (if mark.atEnd then .missingAtEnd wanted else .missing wanted)
    (mark.token? 0 <|> mark.last?) mark.index

end Bookmark

end NeutronLang
