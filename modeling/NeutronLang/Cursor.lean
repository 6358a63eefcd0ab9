import NeutronLang.Token.Basic

/-!
# Cursors

A place in a list of tokens. Reading moves a `Cursor` forward only, so it is kept as the tokens
behind it and the tokens ahead.

A `Bookmark` is an index that may be set anywhere, also before the first token. It is there for
callers that move about in tokens on their own; no reader of the grammar uses it.
-/

namespace NeutronLang

/-- A place in a list of tokens: those already read (`behind`), the latest first, and those still to
read (`ahead`). -/
structure Cursor where
  behind : List Token
  ahead : List Token
deriving DecidableEq

namespace Cursor

/-- The place before the first token. -/
def ofTokens (tokens : List Token) : Cursor := ⟨[], tokens⟩

/-- All tokens, those `behind` and those `ahead`, whatever the place. -/
def tokens (cursor : Cursor) : List Token := cursor.behind.reverse ++ cursor.ahead

/-- How many tokens have been read. -/
def index (cursor : Cursor) : Nat := cursor.behind.length

/-- Whether all tokens have been read. -/
def atEnd (cursor : Cursor) : Bool := cursor.ahead.isEmpty

/-- The next token. -/
def next? (cursor : Cursor) : Option Token := cursor.ahead.head?

/-- Whether the next token has the text `lexeme`, whatever its kind. -/
def sees (cursor : Cursor) (lexeme : String) : Bool := cursor.next?.any (·.lexeme == lexeme)

/-- The place one token further on; the end stays where it is. -/
def advance (cursor : Cursor) : Cursor :=
  match cursor.ahead with
  | [] => cursor
  | token :: ahead => ⟨token :: cursor.behind, ahead⟩

/-- The place a number of tokens further on (`advance`), but not past the end. -/
def advanceBy (cursor : Cursor) : Nat → Cursor
  | 0 => cursor
  | count + 1 => cursor.advance.advanceBy count

/-- Where the token read last ends; before the first token this is the start of the document, 0. -/
def lastStop (cursor : Cursor) : Int := (cursor.behind.head?.map (·.stop)).getD 0

/-- The token that a problem at this place is reported on: the next one or, at the end, the last. -/
def offender? (cursor : Cursor) : Option Token := cursor.ahead.head? <|> cursor.behind.head?

/-- The span of the tokens read from one place to a later one; empty if the first is at the end.

A span is asked for after a statement or a `return`. Before a token each of these reads at least one
(`Grammar.StatementsAdvance`), so there is no case for a later place that is the same one. -/
def spanTo (start stop : Cursor) : Span :=
  match start.ahead with
  | [] => .point start.lastStop
  | first :: _ => .between first.start stop.lastStop

/-- `advance` moves on by one, unless nothing is ahead. -/
theorem index_advance (cursor : Cursor) :
    cursor.advance.index = if cursor.atEnd then cursor.index else cursor.index + 1 := by
  obtain ⟨behind, ahead⟩ := cursor
  cases ahead <;> simp [advance, index, atEnd]

end Cursor

/-- An `index` into a list of tokens, for callers that go back and forth in it. It is never past the
end, but may lie before the first token, where a `Cursor` cannot stand. -/
structure Bookmark where
  tokens : List Token
  index : Int

namespace Bookmark

/-- The index moved by a number of tokens, not past the end, for callers of `Bookmark`. -/
def moveBy (mark : Bookmark) (count : Int) : Bookmark :=
  { mark with index := min (mark.index + count) mark.tokens.length }

/-- The token `count` places from the index. -/
def token? (mark : Bookmark) (count : Int) : Option Token :=
  if 0 ≤ mark.index + count then mark.tokens[(mark.index + count).toNat]? else none

/-- The last of all tokens. -/
def last? (mark : Bookmark) : Option Token := mark.tokens.getLast?

/-- Whether no token lies at or after the index. -/
def atEnd (mark : Bookmark) : Bool := mark.tokens.length ≤ mark.index

/-- The `Cursor` at the index; before the first token there is none. -/
def cursor? (mark : Bookmark) : Option Cursor :=
  if 0 ≤ mark.index then some ((Cursor.ofTokens mark.tokens).advanceBy mark.index.toNat) else none

/-- The index of a cursor. -/
def ofCursor (cursor : Cursor) : Bookmark := ⟨cursor.tokens, cursor.index⟩

end Bookmark

end NeutronLang
