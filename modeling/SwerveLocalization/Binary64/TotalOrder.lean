/-!
# The total order of binary64 numbers

Every 64 bits have a place in this order. The bits of a nonnegative number
increase with it, those of a negative number decrease, and the negative ones
come first. So the numbers themselves come from negative infinity over `-0` and
`0` to positive infinity. A NaN has a sign bit and a payload too: those with the
sign bit come before all numbers, those without it after them, and the larger
the payload is, the further out they are.

A `Float` holds only one NaN, which has no sign bit, so among these the NaN comes
last. `Binary64.Word` keeps the others apart.
-/

namespace SwerveLocalization.Binary64

/-- The bit that tells the negative numbers from the others. -/
def signBit : Nat := 0x8000000000000000

/-- The place of 64 bits in the total order, counted from the one of `0`. -/
def bitsRank (bits : UInt64) : Int :=
  if bits.toNat < signBit then bits.toNat else (signBit : Int) - 1 - (bits.toNat : Int)

/-- The place of a number in the total order. -/
def rank (x : Float) : Int := bitsRank x.toBits

/-- Whether `x` does not come after `y` in the total order. -/
def totalLe (x y : Float) : Bool := decide (rank x ≤ rank y)

theorem totalLe_iff {x y : Float} : totalLe x y = true ↔ rank x ≤ rank y := by
  simp [totalLe]

/-- The total order is transitive. -/
theorem totalLe_trans {x y z : Float} (hxy : totalLe x y = true) (hyz : totalLe y z = true) :
    totalLe x z = true := by
  rw [totalLe_iff] at *
  omega

/-- Any two numbers are in order one way or the other. -/
theorem totalLe_total (x y : Float) : (totalLe x y || totalLe y x) = true := by
  rw [Bool.or_eq_true, totalLe_iff, totalLe_iff]
  omega

/-- A place of the order belongs to the same bits only. -/
theorem eq_of_bitsRank_eq {a b : UInt64} (h : bitsRank a = bitsRank b) : a = b := by
  apply UInt64.toNat_inj.mp
  unfold bitsRank at h
  by_cases ha : a.toNat < signBit <;> by_cases hb : b.toNat < signBit <;>
    simp only [ha, hb, if_true, if_false] at h <;> omega

/-! Negative zero comes just before zero, and the NaN of `Float` after every number. -/

example : totalLe (-0.0) 0.0 = true ∧ totalLe 0.0 (-0.0) = false := by decide +kernel

example : totalLe (1.0 / 0.0) (0.0 / 0.0) = true ∧ totalLe (0.0 / 0.0) (1.0 / 0.0) = false := by
  decide +kernel

end SwerveLocalization.Binary64
