import NeutronLang.Token.Basic
import NeutronLang.Problem
import NeutronLang.Text.Blank

/-!
# Reading tokens

A text is cut into pieces, each of them a token or a gap: a blank or a comment. The cut is the
whole definition of the lexer, since tokens are the pieces that have a kind, at the offsets where
they lie. Only a string that is never closed stops it; what the language has no use for becomes a
symbol.
-/

namespace NeutronLang

/-- A stretch of text: a token of a `kind`, or a gap without one. -/
structure Piece where
  kind : Option TokenKind
  text : List Char
deriving DecidableEq

namespace Lexer

/-- The length of a block comment after its two opening characters; an open one takes all. -/
def commentLength : List Char → Nat
  | '*' :: '/' :: _ => 2
  | _ :: rest => commentLength rest + 1
  | [] => 0

/-- The length of a string after its opening `quote`, the closing one included. A backslash takes
the next character with it, whatever that is. -/
def stringLength? (quote : Char) : List Char → Option Nat
  | [] => none
  | c :: rest =>
    if c = quote then some 1
    else if c = '\\' then
      match rest with
      | [] => none
      | _ :: rest => (stringLength? quote rest).map (· + 2)
    else (stringLength? quote rest).map (· + 1)

/-- The kind of a word, which may be one of the `keywords`. -/
def wordKind (word : List Char) : TokenKind :=
  if keywords.contains (String.ofList word) then .keyword else .identifier

/--
How the text that starts with `c` begins: the kind of its first piece and how many characters of
`rest` belong to it. There is no such piece if it is a string that is never closed.
-/
def firstPiece? (c : Char) (rest : List Char) : Option (Option TokenKind × Nat) :=
  if Text.isBlank c then some (none, 0)
  else if c = '/' ∧ rest.head? = some '/' then
    some (none, (rest.takeWhile (· ≠ '\n')).length)
  else if c = '/' ∧ rest.head? = some '*' then some (none, 1 + commentLength (rest.drop 1))
  else if isQuote c then (stringLength? c rest).map fun n => (some .string, n)
  else if c.isDigit then some (some .number, (rest.takeWhile isNumberChar).length)
  else if isWordStart c then
    let tail := rest.takeWhile isWordChar
    some (some (wordKind (c :: tail)), tail.length)
  else
    match rest.head?.bind (operatorText? c) with
    | some _ => some (some .operator, 1)
    | none => some (some .symbol, 0)

/-- Cuts a text into pieces (`firstPiece?`); what remains is empty or starts with a string that is
never closed. -/
def pieces : List Char → List Piece × List Char
  | [] => ([], [])
  | c :: rest =>
    match firstPiece? c rest with
    | none => ([], c :: rest)
    | some (kind, length) =>
      let (more, left) := pieces (rest.drop length)
      (⟨kind, c :: rest.take length⟩ :: more, left)
termination_by text => text.length
decreasing_by
  simp only [List.length_drop, List.length_cons]
  omega

/-- The text that a token carries: that of its piece, but for the operators spelled in signs
(`operatorText?`). -/
def lexeme (kind : TokenKind) (text : List Char) : String :=
  match kind, text with
  | .operator, [c, d] => (operatorText? c d).getD (String.ofList [c, d])
  | _, text => String.ofList text

/-- The tokens among pieces that lie one after the other from `offset` on. -/
def tokensFrom (offset : Int) : List Piece → List Token
  | [] => []
  | ⟨none, text⟩ :: rest => tokensFrom (offset + text.length) rest
  | ⟨some kind, text⟩ :: rest =>
    let stop := offset + text.length
    ⟨kind, lexeme kind text, offset, stop⟩ :: tokensFrom stop rest

end Lexer

/-- A string that is never closed, on which `tokenize` fails: its quote, where it starts, and where
the text ends. -/
structure OpenString where
  quote : Char
  start : Int
  stop : Int
deriving DecidableEq

/-- The `Problem` that an open string is. -/
def OpenString.problem (fault : OpenString) : Problem where
  message := s!"Unterminated string at position {fault.start}"
  span := .between fault.start fault.stop
  code := some "L002"
  help := some s!"String literals must be closed with a matching {fault.quote} quote."

/-- The tokens of a text, or the string in it that is never closed, by its `pieces`. -/
def tokenize (text : List Char) : Except OpenString (List Token) :=
  match Lexer.pieces text with
  | (pieces, []) => .ok (Lexer.tokensFrom 0 pieces)
  | (_, quote :: rest) => .error ⟨quote, text.length - (rest.length + 1 : Nat), text.length⟩

end NeutronLang
