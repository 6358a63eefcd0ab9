import NeutronLang.Decimal.Nearest

/-!
# Shortest digits

The fewest decimal digits that read back as a given double and, of those, the ones nearest to it.
-/

namespace NeutronLang.Decimal

/-- The number `digits * 10 ^ exponent`. -/
structure Digits where
  digits : Nat
  exponent : Int
deriving DecidableEq

/-- The ratio `num / (den * 10 ^ exponent)` as a numerator and a denominator. -/
def scaledTen (num den : Nat) (exponent : Int) : Nat × Nat :=
  if 0 ≤ exponent then (num, den * Nat.pow 10 exponent.toNat)
  else (num * Nat.pow 10 (-exponent).toNat, den)

/-- How many decimal digits `n` has; zero has one. -/
def digitCount (n : Nat) : Nat := (Nat.toDigits 10 n).length

/-- The greatest `k` with `10 ^ k ≤ num / den`, for numbers above zero. -/
def decimalOrder (num den : Nat) : Int :=
  let guess : Int := (digitCount num : Int) - digitCount den
  let (n, d) := scaledTen num den guess
  if d ≤ n then guess else guess - 1

/-- Whether a number lies between two others, the ends counting only if `closed`. -/
def within (closed : Bool) (low x high : Nat) : Bool :=
  if closed then low ≤ x && x ≤ high else low < x && x < high

/--
The point of a decimal grid that reads back as a magnitude, if there is one: the nearer of the
magnitude's two neighbours on the multiples of `10 ^ exponent` that round to it, the even one of two
equally near.
-/
def onGrid? (x : Magnitude) (exponent : Int) : Option Digits :=
  let (low, middle, high) := x.quarters
  let closed := x.significand % 2 == 0
  -- Everything is measured in one unit, so that the grid's points are the multiples of `step`.
  let unit := scaled 1 4 (-x.exponent)
  let (scale, step) := scaledTen unit.1 unit.2 exponent
  let lower := middle * scale / step
  let reads (k : Nat) : Bool := within closed (low * scale) (k * step) (high * scale)
  let below := middle * scale - lower * step
  let above := (lower + 1) * step - middle * scale
  let preferUpper := above < below || (above == below && lower % 2 == 1)
  if reads lower && !(reads (lower + 1) && preferUpper) then some ⟨lower, exponent⟩
  else if reads (lower + 1) then some ⟨lower + 1, exponent⟩
  else none

/-- The shortest digits of a magnitude above zero, trying `count` more lengths from `length` on. -/
def shortestFrom (x : Magnitude) (order : Int) : (length count : Nat) → Digits
  | length, 0 => (onGrid? x (order - length + 1)).getD ⟨0, 0⟩
  | length, count + 1 =>
    match onGrid? x (order - length + 1) with
    | some digits => digits
    | none => shortestFrom x order (length + 1) count

/-- `Digits` of the same number without zeros at the end. -/
def Digits.reduced (x : Digits) : Digits :=
  let zeros := ((Nat.toDigits 10 x.digits).reverse.takeWhile (· == '0')).length
  ⟨x.digits / Nat.pow 10 zeros, x.exponent + zeros⟩

/--
The shortest digits of a magnitude; seventeen are always enough. The nearest point of a grid may be
the next power of ten, which has a single digit.
-/
def shortest (x : Magnitude) : Digits :=
  if x.significand = 0 then ⟨0, 0⟩
  else
    let (num, den) := scaled x.significand 1 (-x.exponent)
    (shortestFrom x (decimalOrder num den) 1 16).reduced

end NeutronLang.Decimal
