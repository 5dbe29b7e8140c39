import Mathlib
import SwerveLocalization.Proofs.Binary64.Rounding
import SwerveLocalization.Proofs.Scalar

/-!
# Binary64 numbers stand for real numbers

The difference of two finite binary64 numbers is the difference of their
values, rounded. It is never NaN, though it may be infinite. A difference that
needs no rounding is found as it is, for `nearest` leaves every binary64 number
where it is. With the comparisons, this is all that the theory of times needs.
-/

namespace SwerveLocalization.Binary64

open Float.Model Float.Model.UnpackedFloat

/-! ## Numbers that need no rounding -/

theorem lastPlace_le {m : ℕ} {e : ℤ} (hm : 0 < m) (hshort : m < 2 ^ 53) (hleast : -1074 ≤ e) :
    lastPlace ((m : ℝ) * 2 ^ e) ≤ e := by
  have hlog : m.log2 < 53 := (Nat.log2_lt hm.ne').mpr hshort
  rw [← targetExponent_eq hm (Int.floor_natCast m), targetExponent_binary64, totalExponent]
  omega

/-- A number with a mantissa of at most 53 digits needs no rounding. -/
theorem nearestMagnitude_eq {m : ℕ} {e : ℤ} (hshort : m < 2 ^ 53) (hleast : -1074 ≤ e)
    (he : e ≤ 971) : nearestMagnitude ((m : ℝ) * 2 ^ e) = ((m * 2 ^ e : ℝ) : EReal) := by
  rcases Nat.eq_zero_or_pos m with rfl | hm
  · simp
  have hplace := lastPlace_le hm hshort hleast
  have hunits : inUnits ((m : ℝ) * 2 ^ e)
      = ((m * 2 ^ (e - lastPlace ((m : ℝ) * 2 ^ e)).toNat : ℕ) : ℤ) := by
    rw [inUnits, div_eq_iff (by positivity)]
    push_cast
    rw [mul_assoc, ← zpow_natCast, ← zpow_add₀ (by norm_num)]
    congr 2
    omega
  have hgrid : onGrid ((m : ℝ) * 2 ^ e) = m * 2 ^ e := by
    rw [onGrid, hunits, halfEven_intCast, ← hunits, inUnits, div_mul_cancel₀ _ (by positivity)]
  have hshort' : (m : ℝ) < 2 ^ 53 := by exact_mod_cast hshort
  rw [nearestMagnitude, hgrid, capped, if_neg]
  rw [not_le, two_pow_eq_unit]
  calc (m : ℝ) * 2 ^ e ≤ m * unit :=
        mul_le_mul_of_nonneg_left (zpow_le_zpow_right₀ (by norm_num) he) (by positivity)
    _ < 2 ^ 53 * unit := mul_lt_mul_of_pos_right hshort' unit_pos

/-- A stored number is the binary64 number nearest to itself. -/
theorem nearest_dyadic {m : ℕ} {e : ℤ} (s : Sign) (hm : 0 < m) (h : Digits m e) (he : e ≤ 971) :
    nearest (dyadic s m e) = dyadic s m e := by
  have hpos : (0 : ℝ) < m * 2 ^ e := by positivity
  cases s with
  | negative =>
    rw [dyadic_negative, nearest_neg_of_pos hpos, nearestMagnitude_eq h.short h.least he]
    rfl
  | positive => rw [dyadic_positive, nearest_of_nonneg hpos.le, nearestMagnitude_eq h.short h.least he]

theorem denotes_pack_dyadic {m : ℕ} {e : ℤ} (s : Sign) (hm : 0 < m) (h : Digits m e)
    (he : e ≤ 971) :
    Denotes (Float.Model.pack (.finite s m e hm)).unpack (nearest (dyadic s m e)) := by
  rw [nearest_dyadic s hm h he, unpack_pack_finite s hm h, if_pos he]
  exact ⟨rfl, rfl⟩

/-! ## Differences -/

/-- A mantissa may be shifted to a lower exponent. -/
theorem shiftLeft_mul_zpow (m : ℕ) {e f : ℤ} (hf : f ≤ e) :
    ((m <<< (e - f).toNat : ℕ) : ℝ) * 2 ^ f = m * 2 ^ e := by
  rw [Nat.shiftLeft_eq]
  push_cast
  rw [mul_assoc, ← zpow_natCast, ← zpow_add₀ (by norm_num)]
  congr 2
  omega

/-- Lowering an exponent leaves the number as it is. -/
theorem dyadic_decreaseExponent (s : Sign) (m : ℕ) {e f : ℤ} (hf : f ≤ e) :
    dyadic s (decreaseExponent m e f).1 f = dyadic s m e := by
  have hvalue := shiftLeft_mul_zpow m hf
  cases s with
  | negative =>
    rw [dyadic_negative, dyadic_negative]
    exact congrArg Neg.neg hvalue
  | positive =>
    rw [dyadic_positive, dyadic_positive]
    exact hvalue

theorem denotes_sub_finite {s₁ s₂ : Sign} {m₁ m₂ : ℕ} {e₁ e₂ : ℤ} (hm₁ : 0 < m₁) (hm₂ : 0 < m₂) :
    Denotes (Float.Model.pack
        (UnpackedFloat.sub .binary64 (.finite s₁ m₁ e₁ hm₁) (.finite s₂ m₂ e₂ hm₂))).unpack
      (nearest (dyadic s₁ m₁ e₁ - dyadic s₂ m₂ e₂)) := by
  -- both operands are brought to the smaller exponent, where nothing is lost
  have hfirst := dyadic_decreaseExponent s₁ m₁ (min_le_left e₁ e₂)
  have hsecond := dyadic_decreaseExponent s₂ m₂ (min_le_right e₁ e₂)
  have hnormalize := denotes_pack_normalize
    (s₁.apply (decreaseExponent m₁ e₁ (min e₁ e₂)).1
      - s₂.apply (decreaseExponent m₂ e₂ (min e₁ e₂)).1) (min e₁ e₂)
  rw [Int.cast_sub, sub_mul] at hnormalize
  rw [← hfirst, ← hsecond]
  exact hnormalize

/-- The difference of two finite numbers is the difference of their values,
rounded. -/
theorem denotes_sub {x y : Float} (hx : x.isFinite = true) (hy : y.isFinite = true) :
    Denotes (x - y).toModel.unpack (nearest ((value x).toReal - (value y).toReal)) := by
  have hstoredx := stored_unpack x.toModel
  have hstoredy := stored_unpack y.toModel
  show Denotes (Float.Model.pack (UnpackedFloat.sub .binary64 x.toModel.unpack
    y.toModel.unpack)).unpack _
  unfold value
  have hx' : x.toModel.unpack.isFinite = true := hx
  have hy' : y.toModel.unpack.isFinite = true := hy
  generalize x.toModel.unpack = u at *
  generalize y.toModel.unpack = v at *
  cases u with
  | infinity s => simp [UnpackedFloat.isFinite] at hx'
  | notANumber => simp [UnpackedFloat.isFinite] at hx'
  | zero s =>
    cases v with
    | infinity t => simp [UnpackedFloat.isFinite] at hy'
    | notANumber => simp [UnpackedFloat.isFinite] at hy'
    | zero t =>
      simp only [UnpackedFloat.sub, unpackedValue, EReal.toReal_zero, sub_zero, nearest_zero]
      split_ifs
      · exact denotes_zero s
      · exact denotes_zero .positive
    | finite t n f hn =>
      simp only [UnpackedFloat.sub, unpackedValue, EReal.toReal_zero, EReal.toReal_coe, zero_sub,
        ← dyadic_neg_sign]
      exact denotes_pack_dyadic (-t) hn hstoredy.1 hstoredy.2
  | finite s m e hm =>
    cases v with
    | infinity t => simp [UnpackedFloat.isFinite] at hy'
    | notANumber => simp [UnpackedFloat.isFinite] at hy'
    | zero t =>
      simp only [UnpackedFloat.sub, unpackedValue, EReal.toReal_zero, EReal.toReal_coe, sub_zero]
      exact denotes_pack_dyadic s hm hstoredx.1 hstoredx.2
    | finite t n f hn =>
      simp only [unpackedValue, EReal.toReal_coe]
      exact denotes_sub_finite hm hn

noncomputable instance : RealScalar Float where
  value := value
  round := nearest
  round_mono := nearest_mono
  round_zero := nearest_zero
  value_zero := value_zero
  lt_iff := lt_iff
  le_iff := le_iff
  isFinite_iff := isFinite_iff
  isNaN_sub hx hy := (denotes_sub hx hy).1
  value_sub hx hy := (denotes_sub hx hy).2

end SwerveLocalization.Binary64
