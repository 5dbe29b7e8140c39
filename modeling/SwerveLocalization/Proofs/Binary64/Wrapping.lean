import Mathlib
import SwerveLocalization.Angle
import SwerveLocalization.Proofs.Binary64.Interpolation

/-!
# Wrapped headings in binary64

The remainder of two numbers needs no rounding, however large the dividend is.
So wrapping takes every finite angle to a finite heading between `-π` and `π`,
with the double nearest to `π` in its place, and gives no finite heading to
anything else.
-/

namespace SwerveLocalization.Binary64

open Float.Model Float.Model.UnpackedFloat

/-! ## Remainders -/

theorem roundWithAccuracy_zero (s : Sign) (e : ℤ) :
    roundWithAccuracy .binary64 s 0 e .exact = .zero s := by
  have hshift : ∀ k : ℕ, Holds (ExtendedMantissa.ofMantissaAndAccuracy 0 .exact >>> k) 0 := by
    intro k
    have h := (holds_exact 0).shiftRight k
    rwa [Nat.cast_zero, zero_div] at h
  have hrounded : ∀ k : ℕ,
      (ExtendedMantissa.ofMantissaAndAccuracy 0 .exact >>> k).roundedMantissa = 0 := by
    intro k
    have h := (hshift k).roundedMantissa_eq
    rw [← Int.cast_zero, halfEven_intCast] at h
    exact_mod_cast h
  have hmantissa : ∀ k : ℕ, (ExtendedMantissa.ofMantissaAndAccuracy 0 .exact >>> k).mantissa = 0 := by
    intro k
    have h := (hshift k).floor_eq
    rw [Int.floor_zero] at h
    exact_mod_cast h.symm
  simp only [roundWithAccuracy, shiftToTargetExponent, shiftToExponent, hrounded, hmantissa]
  rfl

/-- A number with a mantissa of at most 53 digits is made as it is. -/
theorem denotes_ofDyadic (s : Sign) {m : ℕ} {e : ℤ} (hshort : m < 2 ^ 53) (hleast : -1074 ≤ e)
    (he : e ≤ 971) :
    Denotes (ofDyadic s m e).toModel.unpack ((withSign s (m * 2 ^ e) : ℝ) : EReal) := by
  rcases Nat.eq_zero_or_pos m with rfl | hm
  · have hround : UnpackedFloat.round .binary64 s 0 e = .zero s := by
      simp only [UnpackedFloat.round, decreaseExponent, Nat.zero_shiftLeft]
      exact roundWithAccuracy_zero s _
    have hzero : withSign s ((0 : ℕ) * 2 ^ e) = 0 := by
      cases s <;> simp [withSign]
    show Denotes (Float.Model.pack (UnpackedFloat.round .binary64 s 0 e)).unpack _
    rw [hround, hzero]
    exact denotes_zero s
  · have hround := denotes_pack_round s hm e
    rw [nearestMagnitude_eq hshort hleast he] at hround
    cases s with
    | negative => exact hround
    | positive => exact hround

variable {x y a b : Float}

theorem isFinite_of_mod (h : (x % y).isFinite = true) : x.isFinite = true := by
  replace h : (remainder x y).isFinite = true := h
  have hnan : ¬ nan.isFinite = true := by decide +kernel
  show x.toModel.unpack.isFinite = true
  unfold remainder at h
  generalize x.toModel.unpack = u, y.toModel.unpack = v at h ⊢
  cases u <;> cases v <;> first | rfl | exact absurd h hnan

/-- The remainder is exact. It is smaller than the divisor and has the sign of
the dividend. -/
theorem real_mod (hx : x.isFinite = true) (hy : y.isFinite = true) (hpos : 0 < real y) :
    (x % y).isFinite = true ∧ |real (x % y)| < real y ∧ (0 ≤ real x → 0 ≤ real (x % y)) := by
  have hmod : x % y = remainder x y := rfl
  rcases unpack_cases hy with ⟨t, -, hry⟩ | ⟨t, n, f, hn, hv, hnf, hf, hry⟩
  · rw [hry] at hpos
    exact absurd hpos (lt_irrefl 0)
  rcases unpack_cases hx with ⟨s, hu, hrx⟩ | ⟨s, m, e, hm, hu, hme, he, hrx⟩
  · have hzero : x % y = x := by
      rw [hmod, remainder, hu, hv]
    rw [hzero, hrx, abs_zero]
    exact ⟨hx, hpos, fun h => h⟩
  · have hdyadic : x % y = ofDyadic s
        ((m <<< (e - min e f).toNat) % (n <<< (f - min e f).toNat)) (min e f) := by
      rw [hmod, remainder, hu, hv]
    set c := min e f with hc
    have hleast : -1074 ≤ c := le_min hme.least hnf.least
    have hdivisor := shiftLeft_mul_zpow n (min_le_right e f)
    have hless : m <<< (e - c).toNat % n <<< (f - c).toNat < n <<< (f - c).toNat := by
      apply Nat.mod_lt
      rw [Nat.shiftLeft_eq]
      positivity
    -- one of the two is not shifted, and the remainder is no larger than either
    have hshort : m <<< (e - c).toNat % n <<< (f - c).toNat < 2 ^ 53 := by
      rcases le_total e f with hef | hef
      · have hzero : (e - c).toNat = 0 := by omega
        rw [hzero, Nat.shiftLeft_zero]
        exact (Nat.mod_le _ _).trans_lt hme.short
      · have hzero : (f - c).toNat = 0 := by omega
        rw [hzero, Nat.shiftLeft_zero] at hless ⊢
        exact hless.trans hnf.short
    obtain ⟨hfinite, hreal⟩ := isFinite_of_denotes (denotes_ofDyadic s hshort hleast (by omega))
    rw [← hdyadic] at hfinite hreal
    generalize m <<< (e - c).toNat % n <<< (f - c).toNat = r at hless hreal
    have hr : (0 : ℝ) ≤ r * 2 ^ c := by positivity
    refine ⟨hfinite, ?_, ?_⟩
    · have hlt : (r : ℝ) * 2 ^ c < n * 2 ^ f := by
        rw [← hdivisor]
        apply mul_lt_mul_of_pos_right _ (by positivity)
        exact_mod_cast hless
      cases t with
      | negative =>
        rw [hry, dyadic_negative] at hpos
        have hnonneg : (0 : ℝ) ≤ n * 2 ^ f := by positivity
        linarith
      | positive =>
        rw [hreal, hry, dyadic_positive]
        cases s with
        | negative => exact (abs_neg _).trans_lt ((abs_of_nonneg hr).trans_lt hlt)
        | positive => exact (abs_of_nonneg hr).trans_lt hlt
    · intro hx
      cases s with
      | negative =>
        have hneg := dyadic_neg hm e
        rw [hrx] at hx
        linarith
      | positive =>
        rw [hreal]
        exact hr

/-! ## Half a turn -/

/-- Half a turn. -/
def halfTurn : Float := Scalar.pi

theorem isFinite_halfTurn : halfTurn.isFinite = true := by decide +kernel

theorem real_halfTurn : real halfTurn = 7074237752028440 / 2 ^ 51 := by
  have hunpack : halfTurn.toModel.unpack
      = .finite .positive 7074237752028440 (-51) (by norm_num) := rfl
  rw [real, value, hunpack, unpackedValue, EReal.toReal_coe, dyadic_positive]
  norm_num

theorem real_neg_halfTurn : real (-halfTurn) = -real halfTurn := by
  have hunpack : (-halfTurn).toModel.unpack
      = .finite .negative 7074237752028440 (-51) (by norm_num) := rfl
  rw [real_halfTurn, real, value, hunpack, unpackedValue, EReal.toReal_coe, dyadic_negative]
  norm_num

theorem real_fullTurn : real (halfTurn + halfTurn) = 2 * real halfTurn := by
  have hunpack : (halfTurn + halfTurn).toModel.unpack
      = .finite .positive 7074237752028440 (-50) (by norm_num) := rfl
  rw [real_halfTurn, real, value, hunpack, unpackedValue, EReal.toReal_coe, dyadic_positive]
  norm_num

theorem real_twoTurns :
    real (halfTurn + halfTurn + (halfTurn + halfTurn)) = 4 * real halfTurn := by
  have hunpack : (halfTurn + halfTurn + (halfTurn + halfTurn)).toModel.unpack
      = .finite .positive 7074237752028440 (-49) (by norm_num) := rfl
  rw [real_halfTurn, real, value, hunpack, unpackedValue, EReal.toReal_coe, dyadic_positive]
  norm_num

theorem isFinite_fullTurn : (halfTurn + halfTurn).isFinite = true := by decide +kernel

theorem isFinite_neg_halfTurn : (-halfTurn).isFinite = true := by decide +kernel

theorem halfTurn_pos : 0 < real halfTurn := by
  rw [real_halfTurn]
  norm_num

theorem halfTurn_lt_unit : real halfTurn < 1 / 2 * unit := by
  have hunit : (2 : ℝ) ^ (10 : ℤ) ≤ unit := zpow_le_zpow_right₀ (by norm_num) (by norm_num)
  rw [real_halfTurn]
  norm_num at hunit ⊢
  linarith

/-! ## Wrapping -/

/-- Whether a number is a wrapped heading. -/
def IsHeading (h : Float) : Prop :=
  h.isFinite = true ∧ -real halfTurn < real h ∧ real h ≤ real halfTurn

theorem isHeading_iff : IsHeading a ↔ -halfTurn < a ∧ a ≤ halfTurn := by
  have hneg := isFinite_neg_halfTurn
  constructor
  · rintro ⟨hfinite, hlower, hupper⟩
    rw [real_lt_real hneg hfinite, real_le_real hfinite isFinite_halfTurn, real_neg_halfTurn]
    exact ⟨hlower, hupper⟩
  · rintro ⟨hlower, hupper⟩
    obtain ⟨-, hnan, hlt⟩ := (lt_iff _ _).mp hlower
    obtain ⟨-, -, hle⟩ := (le_iff _ _).mp hupper
    have htop := ((isFinite_iff _).mp isFinite_halfTurn).2.1
    have hfinite : a.isFinite = true :=
      (isFinite_iff a).mpr ⟨hnan, (hle.trans_lt htop.lt_top).ne, hlt.ne_bot⟩
    rw [real_lt_real hneg hfinite, real_neg_halfTurn] at hlower
    rw [real_le_real hfinite isFinite_halfTurn] at hupper
    exact ⟨hfinite, hlower, hupper⟩

theorem wrap_of_isHeading (ha : IsHeading a) : Angle.wrap a = a := if_pos (isHeading_iff.mp ha)

/-- What wrapping does to an angle that is not yet a heading. -/
theorem wrap_of_not_isHeading (ha : ¬ IsHeading a) :
    Angle.wrap a =
      let wrapped := flooredMod (a + halfTurn) (halfTurn + halfTurn) - halfTurn
      if wrapped ≤ -halfTurn then wrapped + (halfTurn + halfTurn) else wrapped :=
  if_neg (mt isHeading_iff.mpr ha)

/-- The floored modulus by a full turn lies between none and one. -/
theorem flooredMod_fullTurn (hx : x.isFinite = true) :
    (flooredMod x (halfTurn + halfTurn)).isFinite = true ∧
      0 ≤ real (flooredMod x (halfTurn + halfTurn)) ∧
      real (flooredMod x (halfTurn + halfTurn)) < 2 * real halfTurn := by
  have hpos := halfTurn_pos
  have hfull := real_fullTurn
  have hfullPos : 0 < real (halfTurn + halfTurn) := by linarith
  unfold flooredMod
  -- the first remainder may have either sign, and a full turn more makes it positive
  obtain ⟨hfirst, hless, -⟩ := real_mod hx isFinite_fullTurn hfullPos
  generalize x % (halfTurn + halfTurn) = r at hfirst hless ⊢
  rw [hfull, abs_lt] at hless
  have hraised := isFinite_of_between (denotes_add hfirst isFinite_fullTurn) (x := 0)
    (y := halfTurn + halfTurn + (halfTurn + halfTurn)) rfl (by decide +kernel)
    (by rw [real_zero, hfull]; linarith) (by rw [real_twoTurns, hfull]; linarith)
  rw [real_zero] at hraised
  obtain ⟨hsecond, hless', hnonneg⟩ := real_mod hraised.1 isFinite_fullTurn hfullPos
  rw [hfull, abs_lt] at hless'
  exact ⟨hsecond, hnonneg hraised.2.1, hless'.2⟩

/-- Every finite angle is wrapped to a heading. -/
theorem isHeading_wrap (ha : a.isFinite = true) : IsHeading (Angle.wrap a) := by
  by_cases hheading : IsHeading a
  · rw [wrap_of_isHeading hheading]
    exact hheading
  have hpos := halfTurn_pos
  have hfull := real_fullTurn
  have hneg := isFinite_neg_halfTurn
  have hshifted : (a + halfTurn).isFinite = true := by
    apply isFinite_add ha isFinite_halfTurn
    rw [abs_of_pos hpos]
    exact halfTurn_lt_unit
  obtain ⟨hmod, hnonneg, hless⟩ := flooredMod_fullTurn hshifted
  rw [wrap_of_not_isHeading hheading]
  generalize flooredMod (a + halfTurn) (halfTurn + halfTurn) = q at hmod hnonneg hless ⊢
  have hsub : Denotes (q - halfTurn).toModel.unpack (nearest (real q - real halfTurn)) :=
    denotes_sub hmod isFinite_halfTurn
  obtain ⟨hwrapped, hlower, hupper⟩ := isFinite_of_between hsub hneg isFinite_halfTurn
    (by rw [real_neg_halfTurn]; linarith) (by linarith)
  rw [real_neg_halfTurn] at hlower
  generalize q - halfTurn = w at hwrapped hlower hupper ⊢
  dsimp only
  split_ifs with hle
  · -- only the lower end itself is moved up, and it becomes the upper end
    rw [real_le_real hwrapped hneg, real_neg_halfTurn] at hle
    have hend : real w = -real halfTurn := le_antisymm hle hlower
    obtain ⟨hfinite, hge, hle⟩ := isFinite_of_between (denotes_add hwrapped isFinite_fullTurn)
      isFinite_halfTurn isFinite_halfTurn (by rw [hend, hfull]; linarith)
      (by rw [hend, hfull]; linarith)
    exact ⟨hfinite, by linarith, hle⟩
  · rw [real_le_real hwrapped hneg, real_neg_halfTurn, not_le] at hle
    exact ⟨hwrapped, hle, hupper⟩

/-- Only finite angles are wrapped to something finite. -/
theorem isFinite_of_wrap (h : (Angle.wrap a).isFinite = true) : a.isFinite = true := by
  by_cases hheading : IsHeading a
  · exact hheading.1
  rw [wrap_of_not_isHeading hheading] at h
  dsimp only at h
  have hwrapped : (flooredMod (a + halfTurn) (halfTurn + halfTurn) - halfTurn).isFinite = true := by
    split_ifs at h
    · exact (isFinite_of_add h).1
    · exact h
  have hraised := isFinite_of_mod (isFinite_of_sub hwrapped).1
  exact (isFinite_of_add (isFinite_of_mod (isFinite_of_add hraised).1)).1

/-! ## Turns between headings -/

theorem IsHeading.abs_lt_unit (ha : IsHeading a) : |real a| < 1 / 2 * unit := by
  have hpos := halfTurn_lt_unit
  rw [abs_lt]
  exact ⟨by linarith [ha.2.1], by linarith [ha.2.2]⟩

/-- A heading may be turned as far as can be said. -/
theorem IsHeading.isFinite_add (ha : IsHeading a) (hx : x.isFinite = true) :
    (a + x).isFinite = true := by
  have hsum := denotes_add ha.1 hx
  rw [add_comm (real a)] at hsum
  exact isFinite_of_abs_lt hsum (abs_add_lt hx ha.abs_lt_unit)

theorem isHeading_turn (ha : a.isFinite = true) (hb : IsHeading b) : IsHeading (Angle.turn a b) :=
  isHeading_wrap (isFinite_sub ha hb.1 hb.abs_lt_unit)

/-- A fraction of a heading is no further from zero than half a turn. -/
theorem IsHeading.fraction {t z : Float} (ha : IsHeading a) (ht : IsFraction t)
    (hz : Denotes z.toModel.unpack (nearest (real a * real t))) :
    z.isFinite = true ∧ |real z| < 1 / 2 * unit := by
  obtain ⟨-, hlower, hupper⟩ := ha
  obtain ⟨-, hnonneg, hone⟩ := ht
  have habs : |real a * real t| ≤ real halfTurn := by
    rw [abs_mul, abs_of_nonneg hnonneg]
    exact (mul_le_of_le_one_right (abs_nonneg _) hone).trans (abs_le.mpr ⟨hlower.le, hupper⟩)
  rw [abs_le] at habs
  obtain ⟨hfinite, hge, hle⟩ := isFinite_of_between hz isFinite_neg_halfTurn isFinite_halfTurn
    (by rw [real_neg_halfTurn]; exact habs.1) habs.2
  rw [real_neg_halfTurn] at hge
  exact ⟨hfinite, (abs_le.mpr ⟨hge, hle⟩).trans_lt halfTurn_lt_unit⟩

/-- Between two headings there is a heading. -/
theorem isHeading_blend {t : Float} (ha : IsHeading a) (hb : IsHeading b) (ht : IsFraction t) :
    IsHeading (Angle.blend a b t) := by
  have hturn := isHeading_turn hb.1 ha
  obtain ⟨hfinite, hsmall⟩ := hturn.fraction ht (denotes_mul hturn.1 ht.1)
  exact isHeading_wrap (isFinite_add ha.1 hfinite hsmall)

end SwerveLocalization.Binary64
