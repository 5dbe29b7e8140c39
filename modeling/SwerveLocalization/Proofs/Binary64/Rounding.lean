import Mathlib
import SwerveLocalization.Proofs.Binary64.Value

/-!
# Bits are rounded as real numbers are

The arithmetic of binary64 numbers shifts mantissas to the right and keeps two
more bits: the last digit that was shifted out, and whether anything but zeros
was shifted out before it. These bits decide the rounding. Here they are read as
statements about the real number that is being rounded, and the outcome is
`nearest` of that number.
-/

namespace SwerveLocalization.Binary64

open Float.Model Float.Model.UnpackedFloat

/-! ## Mantissas with two more bits -/

/-- The extended mantissa has the digits of `x` down to the halves, and its
sticky bit tells whether `x` has digits beyond. -/
structure Holds (em : ExtendedMantissa) (x : ℝ) : Prop where
  lower : 2 * em.mantissa + em.roundBit.toNat ≤ 2 * x
  upper : 2 * x < 2 * em.mantissa + em.roundBit.toNat + 1
  sticky : em.stickyBit = false ↔ 2 * x = 2 * em.mantissa + em.roundBit.toNat

theorem holds_exact (m : ℕ) : Holds (.ofMantissaAndAccuracy m .exact) m := by
  constructor <;> simp [ExtendedMantissa.ofMantissaAndAccuracy]

theorem Holds.floor_eq {em : ExtendedMantissa} {x : ℝ} (h : Holds em x) :
    ⌊x⌋ = (em.mantissa : ℤ) := by
  obtain ⟨hlower, hupper, -⟩ := h
  have hbit : (em.roundBit.toNat : ℝ) ≤ 1 := by exact_mod_cast Bool.toNat_le _
  have hbit' : (0 : ℝ) ≤ em.roundBit.toNat := by positivity
  rw [Int.floor_eq_iff]
  push_cast
  constructor <;> linarith

/-- One more shift halves the number and keeps track of what is lost. -/
theorem Holds.shiftRightOne {em : ExtendedMantissa} {x : ℝ} (h : Holds em x) :
    Holds em.shiftRightOne (x / 2) := by
  obtain ⟨m, r, s⟩ := em
  obtain ⟨hle, hlt⟩ : (m : ℝ) ≤ x ∧ x < m + 1 := by
    exact_mod_cast Int.floor_eq_iff.mp h.floor_eq
  have hdigits : (2 * (m / 2 : ℕ) + (m % 2 != 0).toNat : ℝ) = m := by
    rcases Nat.mod_two_eq_zero_or_one m with hm | hm
    · rw [hm]
      exact_mod_cast (by omega : 2 * (m / 2) + 0 = m)
    · rw [hm]
      exact_mod_cast (by omega : 2 * (m / 2) + 1 = m)
  refine ⟨?_, ?_, ?_⟩ <;> simp only [ExtendedMantissa.shiftRightOne]
  · rw [hdigits]
    linarith
  · rw [hdigits]
    linarith
  · have hlower := h.lower
    have hsticky := h.sticky
    rw [hdigits, Bool.or_eq_false_iff]
    cases r <;> simp only [Bool.toNat_false, Bool.toNat_true] at hlower hsticky <;> grind

theorem Holds.shiftRight {em : ExtendedMantissa} {x : ℝ} (h : Holds em x) (n : ℕ) :
    Holds (em >>> n) (x / 2 ^ n) := by
  show Holds (n.repeat ExtendedMantissa.shiftRightOne em) _
  induction n with
  | zero => simpa [Nat.repeat] using h
  | succ n ih =>
    rw [pow_succ, ← div_div]
    exact ih.shiftRightOne

/-- The two extra bits are all that is needed to find the nearest integer. -/
theorem Holds.roundedMantissa_eq {em : ExtendedMantissa} {x : ℝ} (h : Holds em x) :
    (em.roundedMantissa : ℤ) = halfEven x := by
  have hfract : Int.fract x = x - em.mantissa := by
    rw [Int.fract, h.floor_eq]
    rfl
  rw [halfEven, hfract, h.floor_eq]
  obtain ⟨m, r, s⟩ := em
  obtain ⟨hlower, hupper, hsticky⟩ := h
  cases r <;> cases s <;>
    simp [ExtendedMantissa.roundedMantissa, ExtendedMantissa.accuracy,
      Accuracy.roundToNearestEven] at hlower hupper hsticky ⊢ <;> grind

/-! ## Exponents -/

theorem log_mul_zpow {y : ℝ} (hy : 0 < y) (e : ℤ) :
    Int.log 2 (y * 2 ^ e) = Int.log 2 y + e := by
  have hpos : 0 < y * 2 ^ e := by positivity
  have hlower := Int.zpow_log_le_self (b := 2) (by norm_num) hy
  have hupper := Int.lt_zpow_succ_log_self (b := 2) (by norm_num) y
  push_cast at hlower hupper
  apply le_antisymm
  · rw [← Int.lt_add_one_iff, ← Int.lt_zpow_iff_log_lt (by norm_num) hpos, add_right_comm]
    push_cast
    rw [zpow_add₀ (by norm_num)]
    exact mul_lt_mul_of_pos_right hupper (by positivity)
  · rw [← Int.zpow_le_iff_le_log (by norm_num) hpos]
    push_cast
    rw [zpow_add₀ (by norm_num)]
    exact mul_le_mul_of_nonneg_right hlower (by positivity)

theorem log_eq_log2 {m : ℕ} {y : ℝ} (hm : 0 < m) (hfloor : ⌊y⌋ = (m : ℤ)) :
    Int.log 2 y = Nat.log2 m := by
  have hle : (1 : ℝ) ≤ y := by
    have h := Int.floor_le y
    rw [hfloor] at h
    push_cast at h
    exact le_trans (by exact_mod_cast hm) h
  have hnat : ⌊y⌋₊ = m := by
    rw [← Int.floor_toNat, hfloor]
    rfl
  rw [Int.log_of_one_le_right 2 hle, hnat, Nat.log2_eq_log_two]

theorem targetExponent_binary64 (k : ℤ) :
    Format.binary64.targetExponent k = max (k - 53) (-1074) := rfl

/-- The exponent that binary64 arithmetic chooses is the last place that is
kept. -/
theorem targetExponent_eq {m : ℕ} {y : ℝ} (hm : 0 < m) (hfloor : ⌊y⌋ = (m : ℤ)) (e : ℤ) :
    Format.binary64.targetExponent (totalExponent m e) = lastPlace (y * 2 ^ e) := by
  have hy : 0 < y := by
    have h := Int.floor_le y
    rw [hfloor] at h
    exact lt_of_lt_of_le (by exact_mod_cast hm) h
  rw [lastPlace, log_mul_zpow hy, log_eq_log2 hm hfloor, targetExponent_binary64, totalExponent]
  congr 1
  ring

/-! ## Carrying

Rounding may have produced a 54th digit. It is then shifted out again, which
loses nothing, for the mantissa is a power of two. -/

/-- The number `± r * 2 ^ t` for a mantissa of at most `2 ^ 53`. -/
def carried (s : Sign) (r : ℕ) (t : ℤ) : UnpackedFloat :=
  if h : r = 0 then .zero s
  else if r < 2 ^ 53 then .finite s r t (Nat.pos_of_ne_zero h)
  else .finite s (2 ^ 52) (t + 1) (by norm_num)

theorem shift_of_lt {r : ℕ} {t : ℤ} (hr : r < 2 ^ 53) (ht : -1074 ≤ t) :
    shiftToTargetExponent .binary64 r t .exact = (.ofMantissaAndAccuracy r .exact, t) := by
  have hlog : r.log2 ≤ 52 := by
    rcases Nat.eq_zero_or_pos r with rfl | hpos
    · simp
    · exact Nat.lt_succ_iff.mp ((Nat.log2_lt hpos.ne').mpr hr)
  have hshift : (Format.binary64.targetExponent (totalExponent r t) - t).toNat = 0 := by
    rw [targetExponent_binary64, totalExponent]
    omega
  simp only [shiftToTargetExponent, shiftToExponent, hshift, Nat.cast_zero, add_zero]
  rfl

theorem shift_carry {t : ℤ} (ht : -1074 ≤ t) :
    shiftToTargetExponent .binary64 (2 ^ 53) t .exact
      = (.ofMantissaAndAccuracy (2 ^ 52) .exact, t + 1) := by
  have hshift : (Format.binary64.targetExponent (totalExponent (2 ^ 53) t) - t).toNat = 1 := by
    rw [targetExponent_binary64, totalExponent, Nat.log2_two_pow]
    omega
  simp only [shiftToTargetExponent, shiftToExponent, hshift]
  rfl

/-- The outcome of rounding a number that is known by its mantissa and what
lies behind it, once the exponent that the arithmetic chooses is known. -/
theorem roundWithAccuracy_eq_carried {m : ℕ} {e : ℤ} {a : Accuracy} {y : ℝ} (s : Sign)
    (hy : Holds (.ofMantissaAndAccuracy m a) y)
    (htarget : Format.binary64.targetExponent (totalExponent m e) = lastPlace (y * 2 ^ e))
    (he : e ≤ lastPlace (y * 2 ^ e)) :
    roundWithAccuracy .binary64 s m e a
      = carried s (halfEven (inUnits (y * 2 ^ e))).toNat (lastPlace (y * 2 ^ e)) := by
  set t := lastPlace (y * 2 ^ e) with ht
  have hleast : -1074 ≤ t := le_max_right _ _
  have hshift : e + (t - e).toNat = t := by omega
  have hunits : inUnits (y * 2 ^ e) = y / 2 ^ (t - e).toNat := by
    have hpow : (2 : ℝ) ^ t = 2 ^ (t - e).toNat * 2 ^ e := by
      rw [← zpow_natCast, ← zpow_add₀ (by norm_num), add_comm, hshift]
    rw [inUnits, ← ht, hpow, mul_div_mul_right _ _ (by positivity)]
  have hfirst : shiftToTargetExponent .binary64 m e a
      = (ExtendedMantissa.ofMantissaAndAccuracy m a >>> (t - e).toNat, t) := by
    simp only [shiftToTargetExponent, shiftToExponent, htarget, hshift]
  have hrounded := (hy.shiftRight (t - e).toNat).roundedMantissa_eq
  have hbound := halfEven_inUnits_le (y * 2 ^ e)
  rw [← hunits] at hrounded
  rw [← hrounded] at hbound ⊢
  rw [roundWithAccuracy, hfirst, Int.toNat_natCast]
  dsimp only
  generalize (ExtendedMantissa.ofMantissaAndAccuracy m a >>> (t - e).toNat).roundedMantissa = r
    at hbound ⊢
  -- the second shift does nothing unless the rounding has carried into a 54th digit
  rcases Nat.lt_or_ge r (2 ^ 53) with hr | hr
  · rw [shift_of_lt hr hleast]
    show (if h : r = 0 then zero s else finite s r t (Nat.pos_of_ne_zero h)) = _
    unfold carried
    split_ifs <;> rfl
  · have hcarry : r = 2 ^ 53 := by omega
    subst hcarry
    rw [shift_carry hleast]
    simp [carried, ExtendedMantissa.ofMantissaAndAccuracy]

theorem mantissa_ofMantissaAndAccuracy (m : ℕ) (a : Accuracy) :
    (ExtendedMantissa.ofMantissaAndAccuracy m a).mantissa = m := by
  rcases a with _ | (_ | _ | _) <;> rfl

/-- The outcome of rounding a number of at least one unit. -/
theorem roundWithAccuracy_eq {m : ℕ} {e : ℤ} {a : Accuracy} {y : ℝ} (s : Sign) (hm : 0 < m)
    (hy : Holds (.ofMantissaAndAccuracy m a) y) (he : e ≤ lastPlace (y * 2 ^ e)) :
    roundWithAccuracy .binary64 s m e a
      = carried s (halfEven (inUnits (y * 2 ^ e))).toNat (lastPlace (y * 2 ^ e)) := by
  have hfloor : ⌊y⌋ = (m : ℤ) := by rw [hy.floor_eq, mantissa_ofMantissaAndAccuracy]
  exact roundWithAccuracy_eq_carried s hy (targetExponent_eq hm hfloor e) he

/-- Rounding a number `± m * 2 ^ e`. -/
theorem round_eq {m : ℕ} (s : Sign) (hm : 0 < m) (e : ℤ) :
    UnpackedFloat.round .binary64 s m e
      = carried s (halfEven (inUnits (m * 2 ^ e))).toNat (lastPlace (m * 2 ^ e)) := by
  have htarget := targetExponent_eq hm (Int.floor_natCast m) e
  rw [UnpackedFloat.round, htarget]
  set t := lastPlace (m * 2 ^ e)
  have hpos : 0 < m <<< (e - t).toNat := by
    rw [Nat.shiftLeft_eq]
    positivity
  have hvalue : ((m <<< (e - t).toNat : ℕ) : ℝ) * 2 ^ (e - (e - t).toNat) = m * 2 ^ e := by
    rw [Nat.shiftLeft_eq]
    push_cast
    rw [mul_assoc, ← zpow_natCast, ← zpow_add₀ (by norm_num)]
    congr 2
    omega
  have hround := roundWithAccuracy_eq s hpos (holds_exact _)
    (e := e - (e - t).toNat) (by rw [hvalue]; omega)
  rw [hvalue] at hround
  exact hround

/-! ## Packing

A number is packed into bits and read back. Only a number that is too large
changes on the way. -/

theorem unpack_infinity (s : Sign) :
    UnpackedFloat.unpack .binary64 (packedInfinity .binary64 s) = .infinity s := by
  simp [UnpackedFloat.unpack, packedInfinity]

theorem unpack_subnormal {m : ℕ} (s : Sign) (hm : 0 < m) (hshort : m < 2 ^ 52) :
    UnpackedFloat.unpack .binary64 (packComponents .binary64 s 0#11 (BitVec.ofNat 52 m))
      = .finite s m (-1074) hm := by
  have hmantissa : (BitVec.ofNat 52 m).toNat = m := by
    rw [BitVec.toNat_ofNat, Nat.mod_eq_of_lt hshort]
  have hne : BitVec.ofNat 52 m ≠ 0#52 := by
    intro h
    rw [h] at hmantissa
    exact hm.ne hmantissa
  unfold UnpackedFloat.unpack
  simp only [unpackMantissa_packComponents, unpackExponent_packComponents,
    unpackSign_packComponents, Sign.ofBitVec_toBitVec, hmantissa]
  rw [if_neg (by decide), if_pos trivial, dif_neg hne]
  rfl

theorem unpack_normal {m : ℕ} {b : ℕ} (s : Sign) (hm : 0 < m) (hshort : m < 2 ^ 53)
    (hfull : 2 ^ 52 ≤ m) (hpos : 0 < b) (hlt : b < 2047) :
    UnpackedFloat.unpack .binary64
        (packComponents .binary64 s (BitVec.ofNat 11 b) (BitVec.ofNat 52 m))
      = .finite s m (b - 1075) hm := by
  have hexponent : (BitVec.ofNat 11 b).toNat = b := by
    rw [BitVec.toNat_ofNat, Nat.mod_eq_of_lt (by omega)]
  have hmantissa : (1#1 ++ BitVec.ofNat 52 m).toNat = m := by
    rw [toNat_implicit_append, BitVec.toNat_ofNat]
    omega
  have hones : BitVec.ofNat 11 b ≠ -1#11 := by
    intro h
    rw [h] at hexponent
    exact hlt.ne hexponent.symm
  have hzero : BitVec.ofNat 11 b ≠ 0#11 := by
    intro h
    rw [h] at hexponent
    exact hpos.ne hexponent
  unfold UnpackedFloat.unpack
  simp only [unpackMantissa_packComponents, unpackExponent_packComponents,
    unpackSign_packComponents, Sign.ofBitVec_toBitVec]
  rw [if_neg hones, if_neg hzero]
  simp only [hmantissa, hexponent]
  rfl

/-- A number in range comes back from its bits as it was; one out of range
comes back as an infinity. -/
theorem unpack_pack_finite {m : ℕ} {e : ℤ} (s : Sign) (hm : 0 < m) (h : Digits m e) :
    (Float.Model.pack (.finite s m e hm)).unpack
      = if e ≤ 971 then .finite s m e hm else .infinity s := by
  obtain ⟨hshort, hleast, hfull⟩ := h
  show UnpackedFloat.unpack .binary64 (UnpackedFloat.pack .binary64 (.finite s m e hm)) = _
  have hlog : m.log2 + 1 = Format.binary64.mantissaBits ↔ 2 ^ 52 ≤ m := by
    show m.log2 + 1 = 53 ↔ 2 ^ 52 ≤ m
    have hlt := (Nat.log2_lt hm.ne').mpr hshort
    have hle := Nat.le_log2 (k := 52) hm.ne'
    omega
  obtain ⟨b, hb⟩ : ∃ b : ℕ, e = b - 1075 := ⟨(e + 1075).toNat, by omega⟩
  have hbiased : (e + (Format.binary64.exponentBias : ℤ)
      + Format.binary64.mantissaBitsWithoutImplicit).toNat = b := by
    show (e + 1023 + 52).toNat = b
    omega
  simp only [UnpackedFloat.pack, hbiased]
  subst hb
  have hbig : 2 ^ 11 ≤ b + 1 ↔ ¬ (b - 1075 : ℤ) ≤ 971 := by omega
  by_cases hrange : (b - 1075 : ℤ) ≤ 971
  · rw [if_neg (by rw [hbig]; exact not_not.mpr hrange), if_pos hrange]
    by_cases hnormal : 2 ^ 52 ≤ m
    · rw [if_pos (hlog.mpr hnormal)]
      exact unpack_normal s hm hshort hnormal (by omega) (by omega)
    · -- a short mantissa is stored with the least exponent only
      rw [if_neg (mt hlog.mp hnormal)]
      have hleast' := hfull.resolve_left hnormal
      rw [unpack_subnormal s hm (not_le.mp hnormal), hleast']
  · rw [if_pos (hbig.mpr hrange), if_neg hrange]
    exact unpack_infinity s

/-- A number in stored form is too large exactly if its exponent is. -/
theorem overflow_iff {m : ℕ} {e : ℤ} (h : Digits m e) :
    (2 : ℝ) ^ 1024 ≤ m * 2 ^ e ↔ ¬ e ≤ 971 := by
  have hshort : (m : ℝ) < 2 ^ (53 : ℤ) := by exact_mod_cast h.short
  have hpos : (0 : ℝ) < 2 ^ e := by positivity
  rw [not_le, ← zpow_natCast]
  constructor
  · intro hbig
    by_contra hle
    have hsmall : (m : ℝ) * 2 ^ e < 2 ^ ((1024 : ℕ) : ℤ) := by
      calc (m : ℝ) * 2 ^ e < 2 ^ (53 : ℤ) * 2 ^ e := mul_lt_mul_of_pos_right hshort hpos
        _ = 2 ^ (53 + e) := (zpow_add₀ (by norm_num) _ _).symm
        _ ≤ 2 ^ ((1024 : ℕ) : ℤ) := zpow_le_zpow_right₀ (by norm_num) (by push_cast; omega)
    exact absurd hbig hsmall.not_ge
  · intro hlt
    have hfull : (2 : ℝ) ^ (52 : ℤ) ≤ m := by
      have := h.full.resolve_right (by omega)
      exact_mod_cast this
    calc (2 : ℝ) ^ ((1024 : ℕ) : ℤ) ≤ 2 ^ (52 + e) :=
          zpow_le_zpow_right₀ (by norm_num) (by push_cast; omega)
      _ = 2 ^ (52 : ℤ) * 2 ^ e := zpow_add₀ (by norm_num) _ _
      _ ≤ m * 2 ^ e := mul_le_mul_of_nonneg_right hfull hpos.le

/-! ## The value of a rounded number -/

/-- An extended real number with a sign in front. -/
noncomputable def signed (s : Sign) (v : EReal) : EReal :=
  match s with
  | .negative => -v
  | .positive => v

/-- The unpacked number stands for `v`. -/
def Denotes (u : UnpackedFloat) (v : EReal) : Prop := u.isNaN = false ∧ unpackedValue u = v

theorem denotes_zero (s : Sign) : Denotes (Float.Model.pack (.zero s)).unpack 0 := by
  have hunpack : (Float.Model.pack (.zero s)).unpack = .zero s := unpack_packedZero
  rw [hunpack]
  exact ⟨rfl, rfl⟩

theorem denotes_pack_finite {m : ℕ} {e : ℤ} (s : Sign) (hm : 0 < m) (h : Digits m e) :
    Denotes (Float.Model.pack (.finite s m e hm)).unpack (signed s (capped (m * 2 ^ e))) := by
  rw [unpack_pack_finite s hm h, capped]
  simp only [overflow_iff h]
  by_cases hrange : e ≤ 971
  · rw [if_pos hrange, if_neg (not_not.mpr hrange)]
    cases s
    · exact ⟨rfl, by rw [unpackedValue, dyadic_negative]; rfl⟩
    · exact ⟨rfl, by rw [unpackedValue, dyadic_positive]; rfl⟩
  · rw [if_neg hrange, if_pos hrange]
    cases s
    · exact ⟨rfl, EReal.neg_top.symm⟩
    · exact ⟨rfl, rfl⟩

theorem denotes_pack_carried {r : ℕ} {t : ℤ} (s : Sign) (hr : r ≤ 2 ^ 53) (hleast : -1074 ≤ t)
    (hfull : 2 ^ 52 ≤ r ∨ t = -1074) :
    Denotes (Float.Model.pack (carried s r t)).unpack (signed s (capped (r * 2 ^ t))) := by
  rcases Nat.eq_zero_or_pos r with rfl | hpos
  · have hsigned : signed s 0 = 0 := by cases s <;> simp [signed]
    rw [Nat.cast_zero, zero_mul, capped_zero, hsigned]
    exact denotes_zero s
  · rcases hr.lt_or_eq with hlt | rfl
    · have hcarried : carried s r t = .finite s r t hpos := by
        unfold carried
        split_ifs with hzero
        · exact absurd hzero hpos.ne'
        · rfl
      rw [hcarried]
      exact denotes_pack_finite s hpos ⟨hlt, hleast, hfull⟩
    · -- the carry doubled the mantissa and the halved one stands one place higher
      have hvalue : ((2 ^ 53 : ℕ) : ℝ) * 2 ^ t = (2 ^ 52 : ℕ) * 2 ^ (t + 1) := by
        rw [zpow_add₀ (by norm_num)]
        push_cast
        ring
      rw [hvalue]
      exact denotes_pack_finite s _ ⟨by norm_num, by omega, Or.inl le_rfl⟩

/-- What comes out of rounding a positive number stands for the nearest
binary64 number. -/
theorem denotes_pack_nearest {x : ℝ} (s : Sign) (hx : 0 < x) :
    Denotes (Float.Model.pack (carried s (halfEven (inUnits x)).toNat (lastPlace x))).unpack
      (signed s (nearestMagnitude x)) := by
  have hbound := halfEven_inUnits_le x
  have hnonneg := halfEven_inUnits_nonneg hx.le
  have hgrid : onGrid x = ((halfEven (inUnits x)).toNat : ℝ) * 2 ^ lastPlace x := by
    rw [onGrid]
    congr 1
    exact_mod_cast (Int.toNat_of_nonneg hnonneg).symm
  rw [nearestMagnitude, hgrid]
  apply denotes_pack_carried s (by omega) (le_max_right _ _)
  rcases (le_max_right _ _ : -1074 ≤ lastPlace x).lt_or_eq with hplace | hplace
  · have hfull := le_halfEven_inUnits hx hplace
    exact Or.inl (by omega)
  · exact Or.inr hplace.symm

theorem denotes_pack_round {m : ℕ} (s : Sign) (hm : 0 < m) (e : ℤ) :
    Denotes (Float.Model.pack (UnpackedFloat.round .binary64 s m e)).unpack
      (signed s (nearestMagnitude (m * 2 ^ e))) := by
  rw [round_eq s hm e]
  exact denotes_pack_nearest s (by positivity)

/-- Normalizing a signed number rounds it to the nearest binary64 number. -/
theorem denotes_pack_normalize (n e : ℤ) :
    Denotes (Float.Model.pack (UnpackedFloat.normalize .binary64 n e .positive)).unpack
      (nearest (n * 2 ^ e)) := by
  have hpow : (0 : ℝ) < 2 ^ e := by positivity
  rcases lt_trichotomy n 0 with hn | rfl | hn
  · obtain ⟨k, rfl⟩ : ∃ k : ℕ, n = -k := ⟨(-n).toNat, by omega⟩
    have hk : 0 < k := by omega
    have hpos : (0 : ℝ) < k * 2 ^ e := by positivity
    have hround := denotes_pack_round .negative hk e
    rw [Int.cast_neg, Int.cast_natCast, neg_mul, nearest_neg_of_pos hpos]
    rw [UnpackedFloat.normalize, compare_lt_iff_lt.mpr hn]
    simpa [signed] using hround
  · rw [Int.cast_zero, zero_mul, nearest_zero]
    exact denotes_zero .positive
  · obtain ⟨k, rfl⟩ : ∃ k : ℕ, n = k := ⟨n.toNat, by omega⟩
    have hk : 0 < k := by omega
    have hround := denotes_pack_round .positive hk e
    rw [Int.cast_natCast, nearest_of_nonneg (by positivity)]
    rw [UnpackedFloat.normalize, compare_gt_iff_gt.mpr hn]
    simpa [signed] using hround

end SwerveLocalization.Binary64
