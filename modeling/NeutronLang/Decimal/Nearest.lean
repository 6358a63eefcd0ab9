/-!
# The nearest double

Doubles as multiples of powers of two, in exact arithmetic on natural numbers: the double nearest to
a ratio, with a tie going to the even neighbour, and the reals that round to a given double.
-/

namespace NeutronLang.Decimal

/-- The exponent of the smallest double above zero, `2 ^ -1074`. -/
def leastExponent : Int := -1074

/-- The bits of infinity, the first that no finite double has. -/
def infinityBits : Nat := 0x7ff * Nat.pow 2 52

/-- The quotient of `num` and `den`, rounded to the nearest; a tie goes to the even neighbour. -/
def divideToEven (num den : Nat) : Nat :=
  let quotient := num / den
  let twice := 2 * (num % den)
  if twice < den || (twice == den && quotient % 2 == 0) then quotient else quotient + 1

/-- The ratio `num / (den * 2 ^ exponent)` as a numerator and a denominator. -/
def scaled (num den : Nat) (exponent : Int) : Nat × Nat :=
  if 0 ≤ exponent then (num, den * Nat.pow 2 exponent.toNat)
  else (num * Nat.pow 2 (-exponent).toNat, den)

/-- The greatest `k` with `2 ^ k ≤ num / den`, for numbers above zero. -/
def binaryOrder (num den : Nat) : Int :=
  let guess : Int := (Nat.log2 num : Int) - Nat.log2 den
  let (n, d) := scaled num den guess
  if d ≤ n then guess else guess - 1

/--
The bits of the double nearest to `num / den`. Rounding up to the next power of two carries into the
exponent field, as the encoding wants it, and past the greatest double the answer is infinity.
-/
def nearestBits (num den : Nat) : Nat :=
  if num = 0 then 0
  else
    let exponent := max leastExponent (binaryOrder num den - 52)
    let (n, d) := scaled num den exponent
    min infinityBits ((exponent - leastExponent).toNat * Nat.pow 2 52 + divideToEven n d)

/-- A finite double without its sign: `significand * 2 ^ exponent`. -/
structure Magnitude where
  significand : Nat
  exponent : Int
deriving DecidableEq

/-- The magnitude that the bits of a finite double stand for, those below `infinityBits`. -/
def Magnitude.ofBits (bits : Nat) : Magnitude :=
  let field : Nat := bits / Nat.pow 2 52 % 0x800
  let fraction : Nat := bits % Nat.pow 2 52
  if field = 0 then ⟨fraction, leastExponent⟩
  else ⟨Nat.pow 2 52 + fraction, leastExponent + (field - 1 : Nat)⟩

/--
The reals that round to a magnitude, in units of a quarter of its last place: the least, the
magnitude itself and the greatest. The double below a power of two is only half as far away.
-/
def Magnitude.quarters (x : Magnitude) : Nat × Nat × Nat :=
  let below := if x.significand = Nat.pow 2 52 && leastExponent < x.exponent then 1 else 2
  (4 * x.significand - below, 4 * x.significand, 4 * x.significand + 2)

end NeutronLang.Decimal
