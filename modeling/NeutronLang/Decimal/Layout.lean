import NeutronLang.Decimal.Shortest

/-!
# Written doubles

Doubles written with their shortest digits. Where positional writing ends and how an exponent looks
is a format's own decision, and stands in its `Layout`.
-/

namespace NeutronLang.Decimal

/-- A format's decisions on the writing of doubles, followed by `Layout.write`. -/
structure Layout where
  /-- The least power of ten of a first digit that is written positionally. -/
  least : Int
  /-- The first power of ten above it that takes an exponent again. -/
  beyond : Int
  /-- How many digits an exponent has at least. -/
  exponentWidth : Nat
  infinity : String
  notANumber : String

/-- The digits of `n`, with zeros in front up to `width`. -/
def padded (width n : Nat) : List Char :=
  let digits := Nat.toDigits 10 n
  List.replicate (width - digits.length) '0' ++ digits

/-- Digits written positionally; a whole number keeps one zero after its point. -/
def positional (digits : List Char) (exponent : Int) : List Char :=
  let whole := digits.length + exponent
  if 0 ≤ exponent then digits ++ List.replicate exponent.toNat '0' ++ ['.', '0']
  else if 0 < whole then digits.take whole.toNat ++ '.' :: digits.drop whole.toNat
  else '0' :: '.' :: List.replicate (-whole).toNat '0' ++ digits

/-- Digits written with an exponent, the point after the first of them. -/
def scientific (width : Nat) (digits : List Char) (order : Int) : List Char :=
  let point := if digits.length ≤ 1 then [] else '.' :: digits.drop 1
  let sign := if order < 0 then '-' else '+'
  digits.take 1 ++ point ++ 'e' :: sign :: padded width order.natAbs

/-- A double written in a layout: by `positional` or, far from one, by `scientific`. -/
def Layout.write (layout : Layout) (x : Float) : String :=
  let bits := x.toBits.toNat
  let sign := if Nat.pow 2 63 ≤ bits then ['-'] else []
  let magnitude := bits % Nat.pow 2 63
  if infinityBits < magnitude then layout.notANumber
  else if magnitude = infinityBits then String.ofList sign ++ layout.infinity
  else
    let short := shortest (Magnitude.ofBits magnitude)
    let digits := Nat.toDigits 10 short.digits
    let order : Int := digits.length - 1 + short.exponent
    let body :=
      if layout.least ≤ order && order < layout.beyond then positional digits short.exponent
      else scientific layout.exponentWidth digits order
    String.ofList (sign ++ body)

end NeutronLang.Decimal
