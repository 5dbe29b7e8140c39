import Mathlib
import SwerveLocalization.Proofs.Binary64.Interpolation

/-!
# How large and how fine results are

A result is no larger than a power of two that bounds the exact result, and if the
exact result is a whole multiple of a power of two, so is the rounded one. Nothing
else is lost to rounding that decides whether a computation overflows. Zeros of
either sign are looked at on their own: they survive every sum and every product.
-/

namespace SwerveLocalization.Binary64

variable {x y : Float} {r : ℝ} {k l m n : ℕ}

/-! ## Opposite numbers -/

theorem denotes_neg (hx : x.isFinite = true) : Denotes (-x).toModel.unpack (-real x : ℝ) := by
  show Denotes (Float.Model.pack x.toModel.unpack.neg).unpack _
  rcases unpack_cases hx with ⟨s, hu, hreal⟩ | ⟨s, m, e, hm, hu, hdigits, he, hreal⟩
  · rw [hu, hreal, neg_zero, EReal.coe_zero]
    exact denotes_zero (-s)
  · have hopposite := denotes_pack_dyadic (-s) hm hdigits he
    rw [nearest_dyadic (-s) hm hdigits he, dyadic_neg_sign] at hopposite
    rw [hu, hreal]
    exact hopposite

theorem real_neg (hx : x.isFinite = true) : (-x).isFinite = true ∧ real (-x) = -real x :=
  isFinite_of_denotes (denotes_neg hx)

theorem beq_iff_real (hx : x.isFinite = true) (hy : y.isFinite = true) :
    (x == y) = true ↔ real x = real y := by
  have hnx := ((isFinite_iff x).mp hx).1
  have hny := ((isFinite_iff y).mp hy).1
  rw [beq_iff, value_eq_real hx, value_eq_real hy, EReal.coe_eq_coe_iff]
  simp only [hnx, hny, true_and]

/-! ## Zeros -/

/-- One of the two zeros. -/
def IsZero (x : Float) : Prop := x.isFinite = true ∧ real x = 0

theorem isZero_iff_beq : IsZero x ↔ (x == 0) = true := by
  constructor
  · rintro ⟨hfinite, hzero⟩
    exact (beq_iff_real hfinite rfl).mpr (hzero.trans real_zero.symm)
  · intro h
    have hfinite : x.isFinite = true := GradualScalar.isFinite_of_beq h rfl
    exact ⟨hfinite, ((beq_iff_real hfinite rfl).mp h).trans real_zero⟩

theorem isZero_of_denotes (h : Denotes x.toModel.unpack (nearest r)) (hr : r = 0) : IsZero x := by
  rw [hr, nearest_zero, ← EReal.coe_zero] at h
  exact isFinite_of_denotes h

theorem IsZero.add (hx : IsZero x) (hy : IsZero y) : IsZero (x + y) :=
  isZero_of_denotes (denotes_add hx.1 hy.1) (by rw [hx.2, hy.2, add_zero])

theorem isZero_sub (hx : x.isFinite = true) (hy : y.isFinite = true) (h : real x = real y) :
    IsZero (x - y) :=
  isZero_of_denotes (denotes_sub hx hy) (sub_eq_zero.mpr h)

theorem IsZero.mul_right (hx : IsZero x) (hy : y.isFinite = true) : IsZero (x * y) :=
  isZero_of_denotes (denotes_mul hx.1 hy) (by rw [hx.2, zero_mul])

theorem IsZero.mul_left (hy : IsZero y) (hx : x.isFinite = true) : IsZero (x * y) :=
  isZero_of_denotes (denotes_mul hx hy.1) (by rw [hy.2, mul_zero])

theorem IsZero.div (hx : IsZero x) (hy : y.isFinite = true) (hne : real y ≠ 0) : IsZero (x / y) :=
  isZero_of_denotes (denotes_div hx.1 hy hne) (by rw [hx.2, zero_div])

/-- A zero changes nothing, up to the sign of a zero. -/
theorem IsZero.add_eq (hy : IsZero y) (hx : x.isFinite = true) :
    (x + y).isFinite = true ∧ real (x + y) = real x := by
  have hsum := denotes_add hx hy.1
  rw [hy.2, add_zero, nearest_real hx] at hsum
  exact isFinite_of_denotes hsum

/-! ## Bounds -/

/-- A finite number no larger than a power of two. -/
structure Within (n : ℕ) (x : Float) : Prop where
  finite : x.isFinite = true
  le : |real x| ≤ 2 ^ n

theorem nearest_two_pow (hn : n ≤ 1023) :
    nearest ((2 : ℝ) ^ n) = ((2 ^ n : ℝ) : EReal) ∧ nearest (-(2 : ℝ) ^ n) = ((-2 ^ n : ℝ) : EReal) := by
  have hpow : (2 : ℝ) ^ n = ((2 ^ 52 : ℕ) : ℝ) * 2 ^ ((n : ℤ) - 52) := by
    have hmantissa : ((2 ^ 52 : ℕ) : ℝ) = 2 ^ (52 : ℤ) := by norm_num
    rw [hmantissa, ← zpow_add₀ (by norm_num), ← zpow_natCast]
    congr 1
    omega
  have hmagnitude : nearestMagnitude ((2 : ℝ) ^ n) = ((2 ^ n : ℝ) : EReal) := by
    rw [hpow]
    exact nearestMagnitude_eq (by norm_num) (by omega) (by omega)
  have hpos : (0 : ℝ) < 2 ^ n := by positivity
  rw [nearest_of_nonneg hpos.le, nearest_neg_of_pos hpos, hmagnitude]
  exact ⟨rfl, rfl⟩

/-- Rounding does not lead beyond a power of two. -/
theorem within_of_denotes (h : Denotes x.toModel.unpack (nearest r)) (hr : |r| ≤ 2 ^ n)
    (hn : n ≤ 1023) : Within n x := by
  -- a power of two is its own nearest number, and rounding is monotone
  obtain ⟨hupper, hlower⟩ := nearest_two_pow hn
  rw [abs_le] at hr
  have hle := nearest_mono hr.1
  have hge := nearest_mono hr.2
  rw [hlower] at hle
  rw [hupper] at hge
  have htop : nearest r ≠ ⊤ := (hge.trans_lt (EReal.coe_lt_top _)).ne
  have hbot : nearest r ≠ ⊥ := ((EReal.bot_lt_coe _).trans_le hle).ne'
  rw [← EReal.coe_toReal htop hbot] at h hle hge
  obtain ⟨hfinite, hreal⟩ := isFinite_of_denotes h
  refine ⟨hfinite, abs_le.mpr ?_⟩
  rw [hreal]
  exact ⟨EReal.coe_le_coe_iff.mp hle, EReal.coe_le_coe_iff.mp hge⟩

theorem Within.mono (h : Within m x) (hmn : m ≤ n) : Within n x :=
  ⟨h.finite, h.le.trans (pow_le_pow_right₀ one_le_two hmn)⟩

theorem Within.neg (h : Within n x) : Within n (-x) := by
  obtain ⟨hfinite, hreal⟩ := real_neg h.finite
  refine ⟨hfinite, ?_⟩
  rw [hreal, abs_neg]
  exact h.le

theorem Within.add (hx : Within n x) (hy : Within n y) (hn : n + 1 ≤ 1023) : Within (n + 1) (x + y) := by
  refine within_of_denotes (denotes_add hx.finite hy.finite) ?_ hn
  have habs := abs_add_le (real x) (real y)
  rw [pow_succ]
  linarith [hx.le, hy.le]

theorem Within.sub (hx : Within n x) (hy : Within n y) (hn : n + 1 ≤ 1023) : Within (n + 1) (x - y) := by
  have hsub : Denotes (x - y).toModel.unpack (nearest (real x - real y)) :=
    denotes_sub hx.finite hy.finite
  refine within_of_denotes hsub ?_ hn
  have habs := abs_sub (real x) (real y)
  rw [pow_succ]
  linarith [hx.le, hy.le]

theorem Within.mul (hx : Within m x) (hy : Within n y) (hmn : m + n ≤ 1023) : Within (m + n) (x * y) := by
  refine within_of_denotes (denotes_mul hx.finite hy.finite) ?_ hmn
  rw [abs_mul, pow_add]
  exact mul_le_mul hx.le hy.le (abs_nonneg _) (by positivity)

/-- A quotient is small if the divisor is not tiny. -/
theorem Within.div (hx : Within m x) (hy : y.isFinite = true) (hle : 1 ≤ |real y| * 2 ^ k)
    (hmk : m + k ≤ 1023) : Within (m + k) (x / y) := by
  have hpos : 0 < |real y| := by
    by_contra hnot
    have hzero : |real y| = 0 := le_antisymm (not_lt.mp hnot) (abs_nonneg _)
    rw [hzero, zero_mul] at hle
    exact absurd hle (by norm_num)
  refine within_of_denotes (denotes_div hx.finite hy (abs_pos.mp hpos)) ?_ hmk
  rw [abs_div, div_le_iff₀ hpos]
  calc |real x| ≤ 2 ^ m * 1 := by rw [mul_one]; exact hx.le
    _ ≤ 2 ^ m * (|real y| * 2 ^ k) := mul_le_mul_of_nonneg_left hle (by positivity)
    _ = 2 ^ (m + k) * |real y| := by rw [pow_add]; ring

/-! ## Multiples -/

/-- A finite number no larger than `2 ^ n` that is a whole multiple of `2 ^ -k`. -/
structure Fits (k n : ℕ) (x : Float) : Prop extends Within n x where
  multiple : ∃ z : ℤ, real x * 2 ^ k = z

/-- Whole multiples are rounded to whole multiples. -/
theorem onGrid_multiple (hr : 0 < r) {z : ℤ} (hz : r * 2 ^ k = z) : ∃ z' : ℤ, onGrid r * 2 ^ k = z' := by
  have hpow : ∀ e : ℤ, (2 : ℝ) ^ e * 2 ^ k = 2 ^ (e + k) := by
    intro e
    rw [zpow_add₀ (by norm_num), zpow_natCast]
  rcases le_or_gt 0 (lastPlace r + k) with hcoarse | hfine
  · refine ⟨halfEven (inUnits r) * 2 ^ (lastPlace r + k).toNat, ?_⟩
    rw [onGrid, mul_assoc, hpow]
    push_cast
    rw [← zpow_natCast, Int.toNat_of_nonneg hcoarse]
  · -- the number has no digits behind its last place
    have hunits : inUnits r = ((z * 2 ^ (-(lastPlace r + k)).toNat : ℤ) : ℝ) := by
      have hexponent : (((-(lastPlace r + k)).toNat : ℕ) : ℤ) = -(lastPlace r + k) :=
        Int.toNat_of_nonneg (by omega)
      push_cast
      rw [← zpow_natCast, hexponent, ← hz, zpow_neg, ← hpow, inUnits]
      field_simp
    refine ⟨z, ?_⟩
    rw [onGrid, hunits, halfEven_intCast, ← hunits, inUnits, div_mul_cancel₀ _ (by positivity), hz]

theorem nearestMagnitude_multiple (hr : 0 < r) {z : ℤ} (hz : r * 2 ^ k = z)
    (hx : nearestMagnitude r = (real x : EReal)) : ∃ z' : ℤ, real x * 2 ^ k = z' := by
  unfold nearestMagnitude capped at hx
  split_ifs at hx with hlarge
  · exact absurd hx.symm (EReal.coe_ne_top _)
  · rw [← EReal.coe_eq_coe_iff.mp hx]
    exact onGrid_multiple hr hz

theorem multiple_of_denotes (h : Denotes x.toModel.unpack (nearest r)) (hx : x.isFinite = true)
    (hr : ∃ z : ℤ, r * 2 ^ k = z) : ∃ z : ℤ, real x * 2 ^ k = z := by
  obtain ⟨z, hz⟩ := hr
  have hvalue : (real x : EReal) = nearest r := (value_eq_real hx).symm.trans h.2
  rcases lt_trichotomy r 0 with hneg | rfl | hpos
  · have hopposite := nearest_neg_of_pos (neg_pos.mpr hneg)
    rw [neg_neg, ← hvalue] at hopposite
    obtain ⟨hfinite, hreal⟩ := real_neg hx
    have hmagnitude : nearestMagnitude (-r) = (real (-x) : EReal) := by
      rw [hreal, EReal.coe_neg, hopposite, neg_neg]
    obtain ⟨z', hz'⟩ := nearestMagnitude_multiple (z := -z) (neg_pos.mpr hneg) (by
      rw [neg_mul, hz, Int.cast_neg]) hmagnitude
    refine ⟨-z', ?_⟩
    rw [hreal] at hz'
    rw [Int.cast_neg, ← hz', neg_mul, neg_neg]
  · rw [nearest_zero] at hvalue
    exact ⟨0, by rw [EReal.coe_eq_zero.mp hvalue, zero_mul, Int.cast_zero]⟩
  · rw [nearest_of_nonneg hpos.le] at hvalue
    exact nearestMagnitude_multiple hpos hz hvalue.symm

theorem Fits.mono (h : Fits k m x) (hmn : m ≤ n) : Fits k n x := ⟨h.toWithin.mono hmn, h.multiple⟩

theorem Fits.neg (h : Fits k n x) : Fits k n (-x) := by
  refine ⟨h.toWithin.neg, ?_⟩
  obtain ⟨z, hz⟩ := h.multiple
  exact ⟨-z, by rw [(real_neg h.finite).2, neg_mul, hz, Int.cast_neg]⟩

theorem Fits.add (hx : Fits k n x) (hy : Fits k n y) (hn : n + 1 ≤ 1023) : Fits k (n + 1) (x + y) := by
  have hsum := hx.toWithin.add hy.toWithin hn
  obtain ⟨z, hz⟩ := hx.multiple
  obtain ⟨z', hz'⟩ := hy.multiple
  refine ⟨hsum, multiple_of_denotes (denotes_add hx.finite hy.finite) hsum.finite ⟨z + z', ?_⟩⟩
  rw [add_mul, hz, hz', Int.cast_add]

theorem Fits.sub (hx : Fits k n x) (hy : Fits k n y) (hn : n + 1 ≤ 1023) : Fits k (n + 1) (x - y) := by
  have hdifference := hx.toWithin.sub hy.toWithin hn
  have hsub : Denotes (x - y).toModel.unpack (nearest (real x - real y)) :=
    denotes_sub hx.finite hy.finite
  obtain ⟨z, hz⟩ := hx.multiple
  obtain ⟨z', hz'⟩ := hy.multiple
  refine ⟨hdifference, multiple_of_denotes hsub hdifference.finite ⟨z - z', ?_⟩⟩
  rw [sub_mul, hz, hz', Int.cast_sub]

theorem Fits.mul (hx : Fits k m x) (hy : Fits l n y) (hmn : m + n ≤ 1023) :
    Fits (k + l) (m + n) (x * y) := by
  have hproduct := hx.toWithin.mul hy.toWithin hmn
  obtain ⟨z, hz⟩ := hx.multiple
  obtain ⟨z', hz'⟩ := hy.multiple
  refine ⟨hproduct, multiple_of_denotes (denotes_mul hx.finite hy.finite) hproduct.finite ⟨z * z', ?_⟩⟩
  rw [Int.cast_mul, ← hz, ← hz', pow_add]
  ring

/-- A multiple that is not zero is not tiny. -/
theorem Fits.one_le (h : Fits k n x) (hne : real x ≠ 0) : 1 ≤ |real x| * 2 ^ k := by
  obtain ⟨z, hz⟩ := h.multiple
  have hscaled : |real x| * 2 ^ k = |(z : ℝ)| := by
    rw [← hz, abs_mul, abs_of_pos (by positivity : (0 : ℝ) < 2 ^ k)]
  have hz0 : z ≠ 0 := by
    rintro rfl
    rw [Int.cast_zero, mul_eq_zero] at hz
    exact hz.elim hne (pow_ne_zero k two_ne_zero)
  rw [hscaled]
  exact_mod_cast Int.one_le_abs hz0

end SwerveLocalization.Binary64
