import Mathlib
import SwerveLocalization.Scalar

/-!
# Numbers that stand for real numbers

What the theory needs to know about a number type: every number that is not
NaN stands for an extended real number, comparisons are those of the extended
reals, and a difference of two finite numbers is rounded by a function that
never reverses an order. Binary64 numbers are of this kind, and so are exact
numbers, where nothing is rounded. Of the order that samples are sorted by it is
known only that it puts numbers where `≤` does.
-/

namespace SwerveLocalization

/-- A number type that is read as extended real numbers. -/
class RealScalar (α : Type) [Scalar α] where
  /-- The extended real number that a number stands for. -/
  value : α → EReal
  /-- What becomes of an exact difference. -/
  round : ℝ → EReal
  round_mono : Monotone round
  round_zero : round 0 = 0
  value_zero : value 0 = 0
  lt_iff (x y : α) :
    x < y ↔ Scalar.isNaN x = false ∧ Scalar.isNaN y = false ∧ value x < value y
  le_iff (x y : α) :
    x ≤ y ↔ Scalar.isNaN x = false ∧ Scalar.isNaN y = false ∧ value x ≤ value y
  isFinite_iff (x : α) :
    Scalar.isFinite x = true ↔ Scalar.isNaN x = false ∧ value x ≠ ⊤ ∧ value x ≠ ⊥
  isNaN_sub {x y : α} (hx : Scalar.isFinite x = true) (hy : Scalar.isFinite y = true) :
    Scalar.isNaN (x - y) = false
  value_sub {x y : α} (hx : Scalar.isFinite x = true) (hy : Scalar.isFinite y = true) :
    value (x - y) = round ((value x).toReal - (value y).toReal)

namespace RealScalar

open Scalar

variable {α : Type} [Scalar α] [RealScalar α] {a b c d w x y z : α}

theorem isNaN_of_isFinite (h : isFinite x = true) : isNaN x = false := ((isFinite_iff x).mp h).1

protected theorem lt_irrefl (x : α) : ¬ x < x := by
  rw [lt_iff]
  rintro ⟨-, -, h⟩
  exact h.ne rfl

protected theorem lt_trans (hxy : x < y) (hyz : y < z) : x < z := by
  rw [lt_iff] at *
  exact ⟨hxy.1, hyz.2.1, hxy.2.2.trans hyz.2.2⟩

protected theorem le_trans (hxy : x ≤ y) (hyz : y ≤ z) : x ≤ z := by
  rw [le_iff] at *
  exact ⟨hxy.1, hyz.2.1, hxy.2.2.trans hyz.2.2⟩

protected theorem le_of_lt (h : x < y) : x ≤ y := by
  rw [lt_iff] at h
  rw [le_iff]
  exact ⟨h.1, h.2.1, h.2.2.le⟩

protected theorem le_refl (h : isFinite x = true) : x ≤ x := by
  have hx := isNaN_of_isFinite h
  rw [le_iff]
  exact ⟨hx, hx, le_refl _⟩

/-- Where NaN plays no part, the order is total. -/
protected theorem not_le (hx : isNaN x = false) (hy : isNaN y = false) : ¬ y ≤ x ↔ x < y := by
  rw [lt_iff, le_iff]
  simp only [hx, hy, true_and, not_le]

protected theorem not_lt (hx : isNaN x = false) (hy : isNaN y = false) : ¬ x < y ↔ y ≤ x := by
  rw [lt_iff, le_iff]
  simp only [hx, hy, true_and, not_lt]

protected theorem lt_of_le_of_lt (hxy : x ≤ y) (hyz : y < z) : x < z := by
  rw [le_iff] at hxy
  rw [lt_iff] at *
  exact ⟨hxy.1, hyz.2.1, hxy.2.2.trans_lt hyz.2.2⟩

protected theorem lt_of_lt_of_le (hxy : x < y) (hyz : y ≤ z) : x < z := by
  rw [le_iff] at hyz
  rw [lt_iff] at *
  exact ⟨hxy.1, hyz.2.1, hxy.2.2.trans_le hyz.2.2⟩

protected theorem not_le_of_lt (h : x < y) : ¬ y ≤ x := by
  intro hle
  exact RealScalar.lt_irrefl y (RealScalar.lt_of_le_of_lt hle h)

theorem larger_eq_left (h : y ≤ x) : larger x y = x := by
  have hnan : isNaN x = false := ((le_iff y x).mp h).2.1
  rw [larger, if_neg fun hlt => RealScalar.not_le_of_lt hlt h, hnan]
  rfl

theorem larger_mono (h : x ≤ y) (hz : isFinite z = true) : larger x z ≤ larger y z := by
  obtain ⟨hx, hy, -⟩ := (le_iff x y).mp h
  have hz' := isNaN_of_isFinite hz
  by_cases hyz : y < z
  · rw [larger, if_pos (RealScalar.lt_of_le_of_lt h hyz), larger, if_pos hyz]
    exact RealScalar.le_refl hz
  · have hzy : z ≤ y := (RealScalar.not_lt hy hz').mp hyz
    rw [larger_eq_left hzy]
    by_cases hxz : x < z
    · rw [larger, if_pos hxz]
      exact hzy
    · rw [larger_eq_left ((RealScalar.not_lt hx hz').mp hxz)]
      exact h

/-! ## Differences -/

theorem sub_self_le (hw : 0 ≤ w) (hx : isFinite x = true) : x - x ≤ w := by
  rw [le_iff] at *
  refine ⟨isNaN_sub hx hx, hw.2.1, ?_⟩
  rw [value_sub hx hx, sub_self, round_zero, ← value_zero (α := α)]
  exact hw.2.2

/-- A difference between points further apart is at least as large. -/
protected theorem sub_le_sub (ha : isFinite a = true) (hb : isFinite b = true) (hc : isFinite c = true)
    (hd : isFinite d = true) (hab : a ≤ b) (hdc : d ≤ c) : a - c ≤ b - d := by
  rw [le_iff]
  refine ⟨isNaN_sub ha hc, isNaN_sub hb hd, ?_⟩
  rw [value_sub ha hc, value_sub hb hd]
  apply round_mono
  rw [isFinite_iff] at ha hb hc hd
  rw [le_iff] at hab hdc
  have hleft := EReal.toReal_le_toReal hab.2.2 ha.2.2 hb.2.1
  have hright := EReal.toReal_le_toReal hdc.2.2 hd.2.2 hc.2.1
  linarith

end RealScalar

/-- A number type on which `==` holds where neither number is larger, and on which the
difference of different finite numbers is never rounded to zero. -/
class GradualScalar (α : Type) [Scalar α] [RealScalar α] : Prop where
  beq_iff (x y : α) : (x == y) = true ↔ x ≤ y ∧ y ≤ x
  sub_pos {x y : α} (hx : Scalar.isFinite x = true) (hy : Scalar.isFinite y = true) :
    x < y → 0 < y - x

/-- A number type with a definite order of all values, in which numbers stand as they do
for `≤`. Where the values stand that are not numbers is left open, and so is which
values of one kind it tells apart. -/
class OrderedScalar (α : Type) [Scalar α] : Prop where
  totalLe_trans (x y z : α) :
    Scalar.totalLe x y = true → Scalar.totalLe y z = true → Scalar.totalLe x z = true
  totalLe_total (x y : α) : (Scalar.totalLe x y || Scalar.totalLe y x) = true
  le_of_totalLe {x y : α} (hx : Scalar.isNaN x = false) (hy : Scalar.isNaN y = false) :
    Scalar.totalLe x y = true → x ≤ y

namespace GradualScalar

open Scalar

variable {α : Type} [Scalar α] [RealScalar α] [GradualScalar α] {x y : α}

protected theorem beq_self (h : isFinite x = true) : (x == x) = true :=
  (beq_iff x x).mpr ⟨RealScalar.le_refl h, RealScalar.le_refl h⟩

protected theorem isFinite_of_beq (h : (x == y) = true) (hy : isFinite y = true) :
    isFinite x = true := by
  obtain ⟨hle, hge⟩ := (beq_iff x y).mp h
  rw [RealScalar.le_iff] at hle hge
  rw [RealScalar.isFinite_iff] at *
  rw [hle.2.2.antisymm hge.2.2]
  exact ⟨hle.1, hy.2⟩

/-- Numbers of which one is at most the other are equal or in order. -/
protected theorem lt_of_le_of_not_beq (hle : x ≤ y) (h : ¬ (x == y) = true) : x < y := by
  obtain ⟨hx, hy, -⟩ := (RealScalar.le_iff x y).mp hle
  rw [← RealScalar.not_le hx hy]
  exact fun hge => h ((beq_iff x y).mpr ⟨hle, hge⟩)

end GradualScalar

end SwerveLocalization
