/-!
# Scalars

Every computation of the library is written once, over a number type that
offers the arithmetic, the comparisons and the elementary functions a
drivetrain needs. A robot runs on binary64 numbers; the theory may read the
same definitions over any other type with these operations.

The comparisons `<`, `≤` and `==` are the numeric ones, so a value that is
not a number is unequal to itself. `totalLe` is a linear order on all values,
used wherever samples have to be put in a definite order.
-/

namespace SwerveLocalization

/-- The number type of a localization stack. -/
class Scalar (α : Type) extends Zero α, One α, Neg α, Add α, Sub α, Mul α, Div α, Mod α,
    LT α, LE α, BEq α, OfScientific α where
  /-- Numeric order is decidable. -/
  decidableLT : DecidableLT α
  /-- Numeric order is decidable. -/
  decidableLE : DecidableLE α
  /-- A count, as a number. -/
  ofNat : Nat → α
  /-- Recognises the values that are no number at all. -/
  isNaN : α → Bool
  /-- Recognises ordinary numbers: neither infinite nor NaN. -/
  isFinite : α → Bool
  /-- A linear order that extends `<` to every value. -/
  totalLe : α → α → Bool
  /-- Square root. -/
  sqrt : α → α
  /-- Sine of an angle in radians. -/
  sin : α → α
  /-- Cosine of an angle in radians. -/
  cos : α → α
  /-- The angle of the vector `(x, y)`, given as `atan2 y x`. -/
  atan2 : α → α → α
  /-- Exponential. -/
  exp : α → α
  /-- Half a turn, in radians. -/
  pi : α
  /-- Positive infinity. -/
  infinity : α

namespace Scalar

variable {α : Type} [Scalar α]

instance : DecidableLT α := decidableLT

instance : DecidableLE α := decidableLE

/-- Absolute value. -/
def magnitude (x : α) : α := if x < 0 then -x else x

/-- Recognises the two infinities. -/
def isInfinite (x : α) : Bool := !isFinite x && !isNaN x

/-- The larger of two numbers; a NaN loses against any number. -/
def larger (a b : α) : α := if a < b then b else if isNaN a then b else a

/-- Moves `x` to the nearest point of `[low, high]`. A NaN stays a NaN. -/
def confine (low high x : α) : α := if x < low then low else if high < x then high else x

/-- Membership in the closed interval `[low, high]`, which holds no NaN. -/
def isWithin (low high x : α) : Bool := decide (low ≤ x) && decide (x ≤ high)

end Scalar

end SwerveLocalization
