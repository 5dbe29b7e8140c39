/-!
# Positive binary64 magnitudes as exact fractions

A decimal text of a number is decided by exact arithmetic on natural numbers.
`Magnitude` holds a nonnegative number as a fraction; `roundQuotient` rounds a
quotient to the nearest natural number, an exact half going to the even
neighbour; `decimalExponent` finds the power of ten in front of which the
first digit stands.
-/

namespace SwerveLocalization.Decimal

/-- A nonnegative fraction. -/
structure Magnitude where
  /-- The numerator. -/
  num : Nat
  /-- The denominator, never zero. -/
  den : Nat
deriving DecidableEq

/-- The number `mantissa * 2 ^ exponent`. -/
def Magnitude.ofDyadic (mantissa : Nat) (exponent : Int) : Magnitude :=
  ⟨mantissa * Nat.pow 2 exponent.toNat, Nat.pow 2 (-exponent).toNat⟩

/-- The number times `10 ^ power`. -/
def Magnitude.scaleTen (v : Magnitude) (power : Int) : Magnitude :=
  ⟨v.num * Nat.pow 10 power.toNat, v.den * Nat.pow 10 (-power).toNat⟩

/-- The nearest natural number to `num / den`, a half going to the even one. -/
def roundQuotient (num den : Nat) : Nat :=
  let q := num / den
  let r := num % den
  if 2 * r < den then q else if den < 2 * r then q + 1 else q + q % 2

/-- The nearest natural number, a half going to the even one. -/
def Magnitude.round (v : Magnitude) : Nat := roundQuotient v.num v.den

/-- How many decimal digits `n` has; zero has one. -/
def digitCount (n : Nat) : Nat := (Nat.toDigits 10 n).length

/-- For a positive number `v`, the exponent `k` with
`10 ^ k ≤ v < 10 ^ (k + 1)`. -/
def Magnitude.decimalExponent (v : Magnitude) : Int :=
  if v.den ≤ v.num then
    (digitCount (v.num / v.den) : Int) - 1
  else
    let reciprocal := v.den / v.num
    let k := digitCount reciprocal
    if v.num * Nat.pow 10 (k - 1) = v.den then 1 - (k : Int) else -(k : Int)

/-- The decimal digits of `n`, with zeros in front up to `width` digits. -/
def paddedDigits (width n : Nat) : List Char :=
  let digits := Nat.toDigits 10 n
  List.replicate (width - digits.length) '0' ++ digits

end SwerveLocalization.Decimal
