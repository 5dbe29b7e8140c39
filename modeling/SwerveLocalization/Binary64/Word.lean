import SwerveLocalization.Binary64.Arithmetic

/-!
# Binary64 numbers with all of their NaNs

A `Float` holds one NaN. The 64 bits that store a binary64 number hold many, with
either sign and with payloads, and the total order tells them apart. A `Word` keeps
these bits. It is computed with as the number that it stores, and where a result is
NaN it is the one of `Float`; only a change of sign reaches the bits of a NaN.
-/

namespace SwerveLocalization.Binary64

/-- A binary64 number as the 64 bits that store it. -/
structure Word where
  bits : UInt64
deriving DecidableEq

namespace Word

/-- The number that a word stores. Of a NaN neither the sign nor the payload is left. -/
def toFloat (w : Word) : Float := .ofBits w.bits

/-- The word that stores a number. -/
def ofFloat (x : Float) : Word := ⟨x.toBits⟩

/-- The number with the other sign. -/
def negate (w : Word) : Word := ⟨w.bits ^^^ 0x8000000000000000⟩

/-- Whether `v` does not come after `w` in the total order. -/
def totalLe (v w : Word) : Bool := decide (bitsRank v.bits ≤ bitsRank w.bits)

instance : Scalar Word where
  zero := ofFloat 0
  one := ofFloat 1
  neg := negate
  add v w := ofFloat (v.toFloat + w.toFloat)
  sub v w := ofFloat (v.toFloat - w.toFloat)
  mul v w := ofFloat (v.toFloat * w.toFloat)
  div v w := ofFloat (v.toFloat / w.toFloat)
  mod v w := ofFloat (remainder v.toFloat w.toFloat)
  lt v w := v.toFloat < w.toFloat
  le v w := v.toFloat ≤ w.toFloat
  beq v w := v.toFloat == w.toFloat
  ofScientific m negative e := ofFloat (OfScientific.ofScientific m negative e)
  decidableLT v w := Float.decLt v.toFloat w.toFloat
  decidableLE v w := Float.decLe v.toFloat w.toFloat
  ofNat n := ofFloat (.ofNat n)
  isNaN w := w.toFloat.isNaN
  isFinite w := w.toFloat.isFinite
  totalLe := totalLe
  sqrt w := ofFloat w.toFloat.sqrt
  sin w := ofFloat w.toFloat.sin
  cos w := ofFloat w.toFloat.cos
  atan2 w v := ofFloat (Float.atan2 w.toFloat v.toFloat)
  exp w := ofFloat w.toFloat.exp
  pi := ofFloat Scalar.pi
  infinity := ofFloat Scalar.infinity

/-- The NaN that `Float` holds. -/
def nan : Word := ofFloat Binary64.nan

/-! NaNs stand at both ends of the order, and a change of sign takes one end to the other. -/

example : totalLe (-nan) (-Scalar.infinity) = true ∧ totalLe Scalar.infinity nan = true ∧
    Scalar.isNaN (-nan) = true := by decide +kernel

example : -ofFloat 1.5 = ofFloat (-1.5) ∧ -(-nan) = nan := by decide +kernel

end Word

end SwerveLocalization.Binary64
