import Mathlib
import SwerveLocalization.Line
import SwerveLocalization.Proofs.Binary64.Operations

/-!
# Interpolation in binary64

The fraction of the way at which a number lies is computed from two differences.
Both may overflow, and then the fraction is not what it should be: if the part
overflows it is NaN, and if only the whole does it is zero. Otherwise it lies
between zero and one, where rounding may still take it to zero.
-/

namespace SwerveLocalization.Binary64

variable {a b x t u v : Float}

theorem real_one : real 1 = 1 := by
  have hunpack : (1 : Float).toModel.unpack = .finite .positive (2 ^ 52) (-52) (by norm_num) := rfl
  rw [real, value, hunpack, unpackedValue, EReal.toReal_coe, dyadic_positive]
  norm_num

theorem isFinite_of_lt_of_lt (hax : a < x) (hxb : x < b) : x.isFinite = true := by
  obtain ⟨-, hnan, hlower⟩ := (lt_iff _ _).mp hax
  obtain ⟨-, -, hupper⟩ := (lt_iff _ _).mp hxb
  exact (isFinite_iff x).mpr ⟨hnan, hupper.ne_top, hlower.ne_bot⟩

/-- The part of a way is no longer than the whole. -/
theorem sub_le_sub_left (ha : a.isFinite = true) (hb : b.isFinite = true) (hx : x.isFinite = true)
    (h : x ≤ b) : x - a ≤ b - a :=
  RealScalar.sub_le_sub hx hb ha ha h (RealScalar.le_refl ha)

theorem isFinite_of_pos_of_le (hpos : 0 < value u) (huv : u ≤ v) (hv : v.isFinite = true) :
    u.isFinite = true := by
  obtain ⟨hnan, -, hle⟩ := (le_iff _ _).mp huv
  obtain ⟨-, htop, -⟩ := (isFinite_iff v).mp hv
  exact (isFinite_iff u).mpr ⟨hnan, (hle.trans_lt htop.lt_top).ne, (EReal.bot_lt_zero.trans hpos).ne'⟩

/-- Whether a number is a fraction of a whole. -/
def IsFraction (t : Float) : Prop := t.isFinite = true ∧ 0 ≤ real t ∧ real t ≤ 1

theorem isFraction_of_denotes {r : ℝ} (ht : Denotes t.toModel.unpack (nearest r)) (hnonneg : 0 ≤ r)
    (hle : r ≤ 1) : IsFraction t := by
  obtain ⟨hfinite, hlower, hupper⟩ := isFinite_of_between ht (x := 0) (y := 1) rfl rfl
    (by rwa [real_zero]) (by rwa [real_one])
  rw [real_zero] at hlower
  rw [real_one] at hupper
  exact ⟨hfinite, hlower, hupper⟩

/-- Unless the part of the way overflows, its fraction is between zero and one. -/
theorem isFraction_inverseLerp (ha : a.isFinite = true) (hb : b.isFinite = true) (hax : a < x)
    (hxb : x < b) (hpart : (x - a).isFinite = true) : IsFraction (inverseLerp a b x) := by
  have hx := isFinite_of_lt_of_lt hax hxb
  have hpos : 0 < value (x - a) := value_sub_pos hx ha ((real_lt_real ha hx).mp hax)
  have hle := sub_le_sub_left ha hb hx (RealScalar.le_of_lt hxb)
  have hnonneg : 0 < real (x - a) := by
    rw [value_eq_real hpart] at hpos
    exact EReal.coe_pos.mp hpos
  unfold inverseLerp
  by_cases hwhole : (b - a).isFinite = true
  · have hle' : real (x - a) ≤ real (b - a) := (real_le_real hpart hwhole).mp hle
    have hdiv := denotes_div hpart hwhole (hnonneg.trans_le hle').ne'
    have hwhole' := hnonneg.le.trans hle'
    exact isFraction_of_denotes hdiv (div_nonneg hnonneg.le hwhole') (div_le_one_of_le₀ hle' hwhole')
  · have hnan : (b - a).isNaN = false := (denotes_sub hb ha).1
    have hzero := denotes_div_infinite hpart (by simpa using hwhole) hnan
    obtain ⟨hfinite, hreal⟩ := isFinite_of_denotes (r := 0) hzero
    refine ⟨hfinite, ?_, ?_⟩
    · rw [hreal]
    · rw [hreal]
      exact zero_le_one

/-- If the part of the way overflows, the whole does too, and their quotient is
NaN. -/
theorem isNaN_inverseLerp (ha : a.isFinite = true) (hb : b.isFinite = true) (hax : a < x)
    (hxb : x < b) (hpart : (x - a).isFinite = false) : (inverseLerp a b x).isNaN = true := by
  have hx := isFinite_of_lt_of_lt hax hxb
  have hpos : 0 < value (x - a) := value_sub_pos hx ha ((real_lt_real ha hx).mp hax)
  have hle := sub_le_sub_left ha hb hx (RealScalar.le_of_lt hxb)
  have hwhole : (b - a).isFinite = false := by
    by_contra hfinite
    have := isFinite_of_pos_of_le hpos hle (by simpa using hfinite)
    rw [hpart] at this
    contradiction
  exact isNaN_div_of_infinite hpart hwhole

/-- Between two finite numbers at a finite fraction of the way there is a
number, unless their difference overflows and the fraction is zero. -/
theorem isNaN_lerp (hu : u.isFinite = true) (hv : v.isFinite = true) (ht : t.isFinite = true) :
    (lerp u v t).isNaN = true ↔ (v - u).isFinite = false ∧ real t = 0 := by
  have hdiff : (v - u).isNaN = false := (denotes_sub hv hu).1
  unfold lerp
  constructor
  · intro hnan
    by_contra hnot
    have hproduct : ((v - u) * t).isNaN = false := by
      by_cases hfinite : (v - u).isFinite = true
      · exact (denotes_mul hfinite ht).1
      · have hne : real t ≠ 0 := fun hzero => hnot ⟨by simpa using hfinite, hzero⟩
        exact isNaN_mul_eq_false hdiff ht hne
    rw [isNaN_add_eq_false hu hproduct] at hnan
    contradiction
  · rintro ⟨hinfinite, hzero⟩
    exact isNaN_add (.inr (isNaN_mul_of_zero hinfinite ht hzero))

end SwerveLocalization.Binary64
