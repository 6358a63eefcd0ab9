import NeutronLang.Decimal.Nearest
import NeutronLang.Text.Blank

/-!
# Numerals

The written forms that have a value as a number: blanks around, a sign, digits in groups that single
underscores may divide, and for a decimal a point or an exponent. The digits may be those of any
script. A form that is none of these has no value.
-/

namespace NeutronLang.Decimal

/-- The zeros of the scripts that Unicode 14 gives decimal digits; the nine others follow each. -/
def digitZeros : List Nat :=
  [0x30, 0x660, 0x6f0, 0x7c0, 0x966, 0x9e6, 0xa66, 0xae6, 0xb66, 0xbe6, 0xc66, 0xce6, 0xd66, 0xde6,
   0xe50, 0xed0, 0xf20, 0x1040, 0x1090, 0x17e0, 0x1810, 0x1946, 0x19d0, 0x1a80, 0x1a90, 0x1b50,
   0x1bb0, 0x1c40, 0x1c50, 0xa620, 0xa8d0, 0xa900, 0xa9d0, 0xa9f0, 0xaa50, 0xabf0, 0xff10, 0x104a0,
   0x10d30, 0x11066, 0x110f0, 0x11136, 0x111d0, 0x112f0, 0x11450, 0x114d0, 0x11650, 0x116c0,
   0x11730, 0x118e0, 0x11950, 0x11c50, 0x11d50, 0x11da0, 0x16a60, 0x16ac0, 0x16b50, 0x1d7ce,
   0x1d7d8, 0x1d7e2, 0x1d7ec, 0x1d7f6, 0x1e140, 0x1e2f0, 0x1e950, 0x1fbf0]

/-- The value of a decimal digit, counted from the one of the `digitZeros` before it. -/
def digitValue? (c : Char) : Option Nat :=
  (digitZeros.find? fun first => first ≤ c.toNat && c.toNat < first + 10).map (c.toNat - ·)

/-- The number that digits stand for. -/
def digitsValue (digits : List Nat) : Nat :=
  digits.foldl (fun value digit => value * 10 + digit) 0

/--
The digits at the front of a text and what follows them. A single underscore between two digits is
passed over; `inside` says that a digit stands before the text.
-/
def takeDigits (inside : Bool) : List Char → List Nat × List Char
  | [] => ([], [])
  | '_' :: c :: rest =>
    match inside, digitValue? c with
    | true, some digit => let (digits, after) := takeDigits true rest; (digit :: digits, after)
    | _, _ => ([], '_' :: c :: rest)
  | c :: rest =>
    match digitValue? c with
    | some digit => let (digits, after) := takeDigits true rest; (digit :: digits, after)
    | none => ([], c :: rest)

/-- Takes off a sign; the answer says whether it was a minus. -/
def takeSign : List Char → Bool × List Char
  | '-' :: rest => (true, rest)
  | '+' :: rest => (false, rest)
  | text => (false, text)

/-- The blanks that may stand around a numeral: the information separators are not among them. -/
def isNumeralBlank (c : Char) : Bool := Text.isBlank c && !(0x1c ≤ c.toNat && c.toNat ≤ 0x1f)

/-- A text without the blanks (`isNumeralBlank`) around it. -/
def trimmed (text : List Char) : List Char :=
  ((text.dropWhile isNumeralBlank).reverse.dropWhile isNumeralBlank).reverse

/-- The most digits that an integer may have. -/
def maxIntegerDigits : Nat := 4300

/-- Reads an integer of no more than `maxIntegerDigits`. -/
def readInt? (text : List Char) : Option Int :=
  let (negative, text) := takeSign (trimmed text)
  let (digits, rest) := takeDigits false text
  if rest.isEmpty && !digits.isEmpty && digits.length ≤ maxIntegerDigits then
    let value : Int := digitsValue digits
    some (if negative then -value else value)
  else none

/-- Reads an exponent, `e` and an integer, from the end of a numeral; no text is the exponent 0. -/
def readExponent? : List Char → Option Int
  | [] => some 0
  | mark :: rest =>
    let (negative, text) := takeSign rest
    let (digits, rest) := takeDigits false text
    if (mark == 'e' || mark == 'E') && rest.isEmpty && !digits.isEmpty then
      let value : Int := digitsValue digits
      some (if negative then -value else value)
    else none

/--
The bits of the double nearest to `digits * 10 ^ exponent`, `count` being how many digits there are.
The first two cases only keep the powers of ten small: both lie far outside the range of doubles.
-/
def decimalBits (digits count : Nat) (exponent : Int) : Nat :=
  if digits = 0 || exponent + count < -400 then 0
  else if 400 < exponent then infinityBits
  else if 0 ≤ exponent then nearestBits (digits * Nat.pow 10 exponent.toNat) 1
  else nearestBits digits (Nat.pow 10 (-exponent).toNat)

/-- The double with a sign and the `bits` of a magnitude. -/
def signedDouble (negative : Bool) (bits : Nat) : Float :=
  Float.ofBits (UInt64.ofNat (if negative then Nat.pow 2 63 + bits else bits))

/-- Reads a decimal and rounds it to the nearest double, to infinity if it is too large. -/
def readDouble? (text : List Char) : Option Float := do
  let (negative, text) := takeSign (trimmed text)
  let (whole, rest) := takeDigits false text
  let (places, rest) := match rest with
    | '.' :: rest => takeDigits false rest
    | rest => ([], rest)
  if whole.isEmpty && places.isEmpty then none
  let exponent ← readExponent? rest
  let digits := whole ++ places
  return signedDouble negative
    (decimalBits (digitsValue digits) digits.length (exponent - places.length))

end NeutronLang.Decimal
