import NeutronLang.Span
import NeutronLang.Text.Quoted

/-!
# Tokens

The vocabulary of the language: six kinds of tokens, the reserved words, the operators of two
characters and the classes of characters that words and numbers are made of.
-/

namespace NeutronLang

/-- The kinds of tokens; `TokenKind.name` is how each is shown. -/
inductive TokenKind where
  | number
  | string
  | identifier
  | keyword
  | operator
  | symbol
deriving DecidableEq

namespace TokenKind

/-- The name of a kind. -/
def name : TokenKind → String
  | number => "NUMBER"
  | string => "STRING"
  | identifier => "IDENTIFIER"
  | keyword => "KEYWORD"
  | operator => "OPERATOR"
  | symbol => "SYMBOL"

/-- The kinds in the order of their declaration. -/
def all : List TokenKind := [number, string, identifier, keyword, operator, symbol]

/-- The kind with a name, for callers that bring tokens of their own. -/
def ofName? (name : String) : Option TokenKind := all.find? (·.name == name)

end TokenKind

/-- A token: its `kind`, its text, and the offsets that it was read from. Where tokens come from a
document the offsets are in order, but the type does not say so. -/
structure Token where
  kind : TokenKind
  lexeme : String
  start : Int
  stop : Int
deriving DecidableEq

namespace Token

/-- The `Span` of a token. -/
def span (token : Token) : Span := .between token.start token.stop

/-- Whether a token is an identifier that is not reserved. -/
def isIdentifier (token : Token) : Bool := token.kind == .identifier

/-- Whether a token is a reserved word. -/
def isKeyword (token : Token) : Bool := token.kind == .keyword

/-- A token in short, for callers that print it. -/
def text (token : Token) : String := s!"{token.kind.name}({Text.quoted token.lexeme})"

/-- A token with its offsets, for callers that print it. -/
def details (token : Token) : String :=
  s!"Token({token.kind.name}, {Text.quoted token.lexeme}, {token.start}, {token.stop})"

end Token

/-! ## Words -/

/-- The reserved words. -/
def keywords : List String :=
  ["var", "int", "float", "string", "bool", "array", "object", "any",
   "if", "elif", "else", "while", "for", "return", "break", "continue",
   "class", "fun", "this", "new", "and", "or", "not", "in",
   "match", "case", "default", "use", "using", "true", "false", "nil"]

/-- The reserved words that name the type of a declaration. -/
def typeKeywords : List String := ["int", "float", "string", "bool", "array", "object", "any"]

/-- The reserved words that open a statement, each read by `Grammar.keywordStatement?`. -/
def statementKeywords : List String := ["var", "if", "while", "for", "fun", "class", "return"]

/-- Whether a token can open a statement: an identifier or one of the `statementKeywords`. -/
def Token.startsStatement (token : Token) : Bool :=
  token.isIdentifier || (token.isKeyword && statementKeywords.contains token.lexeme)

/-! ## Characters -/

/-- Whether a word can start with a character. -/
def isWordStart (c : Char) : Bool := c.isAlpha || c == '_' || c == '$'

/-- Whether a word can go on with a character. -/
def isWordChar (c : Char) : Bool := isWordStart c || c.isDigit

/-- Whether a number can go on with a character. -/
def isNumberChar (c : Char) : Bool := c.isDigit || c == '.'

/-- Whether a character opens and closes strings. -/
def isQuote (c : Char) : Bool := c == Text.doubleQuote || c == Text.singleQuote

/-- The text that a token of two characters carries, if the two make an operator. -/
def operatorText? : Char → Char → Option String
  | '=', '=' => some "=="
  | '!', '=' => some "!="
  | '>', '=' => some ">="
  | '<', '=' => some "<="
  | '&', '&' => some "and"
  | '|', '|' => some "or"
  | _, _ => none

end NeutronLang
