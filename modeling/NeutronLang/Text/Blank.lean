/-!
# Blank characters

The characters that separate tokens. The table is that of Unicode's white space, with the four
information separators U+001C to U+001F; the zero-width characters and the byte order mark are not
blank, so the lexer makes symbols of them.
-/

namespace NeutronLang.Text

/-- The blank characters, as ranges of code points with both ends included. -/
def blankRanges : List (Nat × Nat) :=
  [(0x09, 0x0d), (0x1c, 0x20), (0x85, 0x85), (0xa0, 0xa0), (0x1680, 0x1680), (0x2000, 0x200a),
   (0x2028, 0x2029), (0x202f, 0x202f), (0x205f, 0x205f), (0x3000, 0x3000)]

/-- Whether a character is blank: one of the `blankRanges`. -/
def isBlank (c : Char) : Bool :=
  blankRanges.any fun (low, high) => low ≤ c.toNat && c.toNat ≤ high

/-- A line ends at a line feed or at a carriage return. -/
def isLineBreak (c : Char) : Bool := c == '\n' || c == '\r'

/-- Whether a text has blank characters only, as the empty text does. -/
def isBlankText (text : List Char) : Bool := text.all isBlank

/-- Whether an offset is a place for a text: one before the start counts back from the end. -/
def hasPlace (text : List Char) (offset : Int) : Bool := -(text.length : Int) ≤ offset

/-- What is read from `offset` on; before the start, the end of the text and then all of it. -/
def readFrom (text : List Char) (offset : Int) : List Char :=
  if 0 ≤ offset then text.drop offset.toNat
  else text.drop (text.length + offset).toNat ++ text

/-- Where the line that holds `offset` ends: the first line break that is read from there on, or the
end of the text. An offset past the end belongs to the last line. -/
def lineEnd (text : List Char) (offset : Int) : Int :=
  if text.length ≤ offset then text.length
  else offset + ((readFrom text offset).takeWhile fun c => !isLineBreak c).length

end NeutronLang.Text
