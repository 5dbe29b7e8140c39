import Mathlib
import SwerveLocalization.Angle
import SwerveLocalization.Proofs.Exact.Number

/-!
# Headings without rounding

On real numbers the wrapped heading is the representative of an angle between
`-π` and `π`, with `π` included, so headings may be added and subtracted as
angles and wrapped once at the end. What is not a real number has no heading.
-/

namespace SwerveLocalization.Exact

open Real Scalar

variable (a b d t : ℝ) {x : Exact}

/-! ## The floored modulus -/

theorem towardZero_le_add_one : (towardZero a : ℝ) ≤ a + 1 ∧ a - 1 ≤ towardZero a := by
  have hfloor := Int.floor_le a
  have hfloor' := Int.lt_floor_add_one a
  have hceil := Int.le_ceil a
  have hceil' := Int.ceil_lt_add_one a
  unfold towardZero
  split_ifs <;> constructor <;> linarith

theorem towardZero_of_nonneg {q : ℝ} (hq : 0 ≤ q) : towardZero q = ⌊q⌋ := if_pos hq

/-- The floored modulus lies between zero and the divisor and differs from the
dividend by a multiple of the divisor. -/
theorem flooredMod_real (hb : 0 < b) :
    ∃ r : ℝ, flooredMod (real a) (real b) = real r ∧ 0 ≤ r ∧ r < b ∧ ∃ k : ℤ, r - a = b * k := by
  have hfirst : real a % real b = real (a - b * towardZero (a / b)) := real_mod_real a b hb.ne'
  have hlower : 0 ≤ a - b * towardZero (a / b) + b := by
    have hle := mul_le_mul_of_nonneg_left (towardZero_le_add_one (a / b)).1 hb.le
    rw [mul_add, mul_div_cancel₀ a hb.ne'] at hle
    linarith
  have hquotient : 0 ≤ (a - b * towardZero (a / b) + b) / b := div_nonneg hlower hb.le
  refine ⟨b * Int.fract ((a - b * towardZero (a / b) + b) / b), ?_, ?_, ?_, ?_⟩
  · unfold flooredMod
    rw [hfirst, real_add_real, real_mod_real _ _ hb.ne', towardZero_of_nonneg hquotient, Int.fract,
      mul_sub, mul_div_cancel₀ _ hb.ne']
  · exact mul_nonneg hb.le (Int.fract_nonneg _)
  · exact mul_lt_of_lt_one_right hb (Int.fract_lt_one _)
  · refine ⟨1 - towardZero (a / b) - ⌊(a - b * towardZero (a / b) + b) / b⌋, ?_⟩
    rw [Int.fract, mul_sub, mul_div_cancel₀ _ hb.ne']
    push_cast
    ring

/-! ## Wrapping -/

/-- The representative of an angle is known by its range. -/
theorem eq_toReal {w : ℝ} (hlower : -π < w) (hupper : w ≤ π) {k : ℤ} (h : w - a = 2 * π * k) :
    w = (a : Angle).toReal := by
  rw [← Angle.angle_eq_iff_two_pi_dvd_sub.mpr ⟨k, h⟩]
  exact (Angle.toReal_coe_eq_self_iff.mpr ⟨hlower, hupper⟩).symm

/-- What wrapping makes of a floored modulus. -/
noncomputable def settle (m : Exact) : Exact := if m - pi ≤ -pi then m - pi + (pi + pi) else m - pi

theorem wrap_eq_settle (h : ¬ (-pi < x ∧ x ≤ pi)) :
    Angle.wrap x = settle (flooredMod (x + pi) (pi + pi)) := if_neg h

theorem settle_real_of_le {r : ℝ} (h : r - π ≤ -π) : settle (real r) = real (r + π) := by
  unfold settle
  rw [if_pos (by simpa using h)]
  simp only [pi_eq, real_sub_real, real_add_real]
  congr 1
  ring

theorem settle_real_of_lt {r : ℝ} (h : -π < r - π) : settle (real r) = real (r - π) := by
  unfold settle
  rw [if_neg (by simpa using h)]
  rfl

@[simp] theorem wrap_real : Angle.wrap (real a) = real (a : Real.Angle).toReal := by
  by_cases hin : -π < a ∧ a ≤ π
  · have hwrap : Angle.wrap (real a) = real a := if_pos (by simpa using hin)
    rw [hwrap]
    exact congrArg real (eq_toReal a hin.1 hin.2 (k := 0) (by simp))
  · -- the modulus leaves `-π` at the lower end, which counts as `π`
    obtain ⟨r, hr, hlower, hupper, k, hk⟩ := flooredMod_real (a + π) (π + π) (by positivity)
    have hmod : flooredMod (real a + pi) ((pi : Exact) + pi) = real r := hr
    rw [wrap_eq_settle (by simpa using hin), hmod]
    rcases le_or_gt (r - π) (-π) with hlow | hlow
    · rw [settle_real_of_le hlow]
      refine congrArg real (eq_toReal a ?_ ?_ (k := k + 1) ?_)
      · linarith [pi_pos]
      · linarith
      · push_cast
        linarith
    · rw [settle_real_of_lt hlow]
      refine congrArg real (eq_toReal a ?_ ?_ (k := k) ?_)
      · linarith
      · linarith
      · linarith

/-- There is no heading beyond the real numbers. -/
theorem wrap_of_not_finite (h : Scalar.isFinite x = false) : Angle.wrap x = nan := by
  have hmod : flooredMod (x + pi) ((pi : Exact) + pi) = nan := by
    unfold flooredMod
    cases x with
    | real x => contradiction
    | posInf => rfl
    | negInf => rfl
    | nan => rfl
  have hin : ¬ (-pi < x ∧ x ≤ pi) := by
    rintro ⟨hlower, hupper⟩
    rw [RealScalar.lt_iff] at hlower
    rw [RealScalar.le_iff] at hupper
    have hfinite := (RealScalar.isFinite_iff x).mpr ⟨hupper.1,
      ne_top_of_le_ne_top (EReal.coe_ne_top π) hupper.2.2, ne_bot_of_gt hlower.2.2⟩
    rw [h] at hfinite
    contradiction
  have hle : ¬ (nan : Exact) - pi ≤ -pi := fun hle => absurd hle.1 (by decide)
  rw [wrap_eq_settle hin, hmod, settle, if_neg hle]
  rfl

/-- A heading may be wrapped before a turn is added. -/
theorem wrap_wrap_add : Angle.wrap (Angle.wrap x + real d) = Angle.wrap (x + real d) := by
  cases hx : Scalar.isFinite x with
  | true =>
    obtain ⟨a, rfl⟩ := isFinite_iff_exists.mp hx
    rw [wrap_real, real_add_real, real_add_real, wrap_real, wrap_real, Angle.coe_add,
      Angle.coe_toReal, Angle.coe_add]
  | false =>
    rw [wrap_of_not_finite hx, add_real_of_not_finite d rfl, add_real_of_not_finite d hx,
      wrap_of_not_finite hx, wrap_of_not_finite rfl]

theorem wrap_wrap : Angle.wrap (Angle.wrap x) = Angle.wrap x := by
  cases hx : Scalar.isFinite x with
  | true =>
    obtain ⟨a, rfl⟩ := isFinite_iff_exists.mp hx
    rw [wrap_real, wrap_real, Angle.coe_toReal]
  | false => rw [wrap_of_not_finite hx, wrap_of_not_finite rfl]

/-- Turning both headings does not change the turn between them. -/
theorem turn_wrap_add :
    Angle.turn (Angle.wrap (real b + real d)) (Angle.wrap (real a + real d))
      = Angle.turn (real b) (real a) := by
  unfold SwerveLocalization.Angle.turn
  simp only [real_add_real, wrap_real, real_sub_real, Angle.coe_sub, Angle.coe_toReal,
    Angle.coe_add, add_sub_add_right_eq_sub]

theorem blend_of_not_finite {start finish : Exact}
    (h : Scalar.isFinite start = false ∨ Scalar.isFinite finish = false) :
    Angle.blend start finish (real t) = nan := by
  have hturn : Scalar.isFinite (Angle.turn finish start) = false := by
    rw [SwerveLocalization.Angle.turn, wrap_of_not_finite (not_finite_sub h.symm)]
    rfl
  exact wrap_of_not_finite (not_finite_add (.inr (not_finite_mul (.inl hturn))))

/-- A blend between two turned headings is the turned blend. -/
theorem blend_wrap_add (start finish : Exact) :
    Angle.blend (Angle.wrap (start + real d)) (Angle.wrap (finish + real d)) (real t)
      = Angle.wrap (Angle.blend start finish (real t) + real d) := by
  by_cases h : Scalar.isFinite start = true ∧ Scalar.isFinite finish = true
  · obtain ⟨a, rfl⟩ := isFinite_iff_exists.mp h.1
    obtain ⟨b, rfl⟩ := isFinite_iff_exists.mp h.2
    obtain ⟨τ, hτ⟩ : ∃ τ, Angle.turn (real b) (real a) = real τ := ⟨_, wrap_real _⟩
    unfold SwerveLocalization.Angle.blend
    rw [turn_wrap_add, hτ, real_mul_real, wrap_wrap_add, wrap_wrap_add]
    simp only [real_add_real, add_right_comm]
  · have h' : Scalar.isFinite start = false ∨ Scalar.isFinite finish = false := by
      rw [← Bool.not_eq_true, ← Bool.not_eq_true]
      exact not_and_or.mp h
    have hnan : Angle.wrap (nan + real d) = nan := wrap_of_not_finite rfl
    rw [blend_of_not_finite t h', hnan]
    apply blend_of_not_finite
    rcases h' with h' | h'
    · left
      rw [wrap_of_not_finite (not_finite_add (.inl h'))]
      rfl
    · right
      rw [wrap_of_not_finite (not_finite_add (.inl h'))]
      rfl

end SwerveLocalization.Exact
