import SwerveLocalization.Rejection

/-!
# Tallies

How many samples of each kind an estimator has taken in and rejected. The
counters are 32-bit words that stop at their largest value.
-/

namespace SwerveLocalization

/-- A counter one higher, or the same if it has reached its largest value. -/
def countOn (n : UInt32) : UInt32 := if n.toNat + 1 < UInt32.size then n + 1 else n

/-- A counter adds one until it has reached its largest value. -/
theorem toNat_countOn (n : UInt32) : (countOn n).toNat = min (n.toNat + 1) (UInt32.size - 1) := by
  have bound := n.toNat_lt
  simp only [UInt32.size]
  unfold countOn
  split
  · rename_i h
    simp only [UInt32.size] at h
    rw [UInt32.toNat_add, UInt32.toNat_one]
    omega
  · rename_i h
    simp only [UInt32.size] at h
    omega

/-- The counts of an estimator. -/
structure Tally where
  odometryApplied : UInt32
  visionAccepted : UInt32
  /-- Rejections by reason, in the order of `Rejection.all`. -/
  rejections : Vector UInt32 10
deriving DecidableEq

namespace Tally

/-- Nothing counted yet. -/
def zero : Tally := ⟨0, 0, Vector.replicate 10 0⟩

/-- How often a reason has been counted. -/
def rejectedFor (t : Tally) (r : Rejection) : UInt32 := t.rejections[r.index]

/-- How many samples have been rejected, as a sum of words. -/
def rejected (t : Tally) : UInt32 := t.rejections.toList.foldl (· + ·) 0

/-- Counts a wheel reading that was applied. -/
def countOdometry (t : Tally) : Tally := { t with odometryApplied := countOn t.odometryApplied }

/-- Counts a camera pose that was accepted. -/
def countVision (t : Tally) : Tally := { t with visionAccepted := countOn t.visionAccepted }

/-- Counts a rejection. -/
def countRejection (t : Tally) (r : Rejection) : Tally :=
  { t with rejections := t.rejections.set r.index.val (countOn (t.rejectedFor r)) r.index.isLt }

@[simp] theorem rejectedFor_zero (r : Rejection) : zero.rejectedFor r = 0 := by
  cases r <;> rfl

/-- Counting a rejection changes the count of its own reason only. -/
theorem rejectedFor_countRejection (t : Tally) (r q : Rejection) :
    (t.countRejection r).rejectedFor q
      = if q = r then countOn (t.rejectedFor r) else t.rejectedFor q := by
  simp only [rejectedFor, countRejection, Fin.getElem_fin, Vector.getElem_set, Fin.val_inj,
    Rejection.index_inj, eq_comm]

end Tally

end SwerveLocalization
