import Mathlib
import SwerveLocalization.Proofs.Binary64.Arithmetic

/-!
# Sums, products and quotients of binary64 numbers

Each operation on finite numbers is the exact one, rounded. What it gives on
infinities and on NaN is said here as far as it decides whether a result is
finite, and whether it is a number at all. A result between two finite numbers
is finite, since rounding never reverses an order.
-/

namespace SwerveLocalization.Binary64

open Float.Model Float.Model.UnpackedFloat

/-- The real number that a finite number stands for. -/
noncomputable def real (x : Float) : ℝ := (value x).toReal

/-! ## Results that stand for a real number -/

section Results

variable {x y z : Float} {r : ℝ}

theorem value_eq_real (hx : x.isFinite = true) : value x = real x := by
  obtain ⟨-, htop, hbot⟩ := (isFinite_iff x).mp hx
  exact (EReal.coe_toReal htop hbot).symm

theorem isFinite_of_denotes (h : Denotes x.toModel.unpack r) : x.isFinite = true ∧ real x = r := by
  obtain ⟨hnan, hvalue⟩ := h
  have hx : value x = r := hvalue
  refine ⟨(isFinite_iff x).mpr ⟨hnan, ?_, ?_⟩, ?_⟩
  · rw [hx]
    exact EReal.coe_ne_top r
  · rw [hx]
    exact EReal.coe_ne_bot r
  · rw [real, hx, EReal.toReal_coe]

theorem real_lt_real (hx : x.isFinite = true) (hy : y.isFinite = true) :
    x < y ↔ real x < real y := by
  have hnx := ((isFinite_iff x).mp hx).1
  have hny := ((isFinite_iff y).mp hy).1
  rw [lt_iff, value_eq_real hx, value_eq_real hy, EReal.coe_lt_coe_iff]
  simp only [hnx, hny, true_and]

theorem real_le_real (hx : x.isFinite = true) (hy : y.isFinite = true) :
    x ≤ y ↔ real x ≤ real y := by
  have hnx := ((isFinite_iff x).mp hx).1
  have hny := ((isFinite_iff y).mp hy).1
  rw [le_iff, value_eq_real hx, value_eq_real hy, EReal.coe_le_coe_iff]
  simp only [hnx, hny, true_and]

theorem lt_of_not_lt_of_not_beq (hx : x.isFinite = true) (hy : y.isFinite = true) (hlt : ¬ y < x)
    (hne : ¬ (y == x) = true) : x < y := by
  refine (lt_iff_le_and_not_beq x y).mpr ⟨?_, hne⟩
  rw [real_lt_real hy hx, not_lt] at hlt
  exact (real_le_real hx hy).mpr hlt

@[simp] theorem real_zero : real 0 = 0 := by
  rw [real, value_zero, EReal.toReal_zero]

/-- A finite number is stored as a zero, or with a sign and digits. -/
theorem unpack_cases (hx : x.isFinite = true) :
    (∃ s, x.toModel.unpack = .zero s ∧ real x = 0) ∨
      ∃ s m e, ∃ hm : 0 < m, x.toModel.unpack = .finite s m e hm ∧ Digits m e ∧ e ≤ 971 ∧
        real x = dyadic s m e := by
  have hstored := stored_unpack x.toModel
  have hfinite : x.toModel.unpack.isFinite = true := hx
  unfold real value
  generalize x.toModel.unpack = u at *
  cases u with
  | infinity s => simp [UnpackedFloat.isFinite] at hfinite
  | notANumber => simp [UnpackedFloat.isFinite] at hfinite
  | zero s => exact .inl ⟨s, rfl, EReal.toReal_zero⟩
  | finite s m e hm =>
    exact .inr ⟨s, m, e, hm, rfl, hstored.1, hstored.2, EReal.toReal_coe _⟩

/-- Finite numbers need no rounding. -/
theorem nearest_real (hx : x.isFinite = true) : nearest (real x) = real x := by
  rcases unpack_cases hx with ⟨s, -, hzero⟩ | ⟨s, m, e, hm, -, hdigits, he, hreal⟩
  · rw [hzero]
    exact nearest_zero
  · rw [hreal]
    exact nearest_dyadic s hm hdigits he

/-- A result that lies between two finite numbers is finite and stays between
them. -/
theorem isFinite_of_between (hz : Denotes z.toModel.unpack (nearest r)) (hx : x.isFinite = true)
    (hy : y.isFinite = true) (hlower : real x ≤ r) (hupper : r ≤ real y) :
    z.isFinite = true ∧ real x ≤ real z ∧ real z ≤ real y := by
  have hle := nearest_mono hlower
  have hge := nearest_mono hupper
  rw [nearest_real hx] at hle
  rw [nearest_real hy] at hge
  have htop : nearest r ≠ ⊤ := (hge.trans_lt (EReal.coe_lt_top _)).ne
  have hbot : nearest r ≠ ⊥ := ((EReal.bot_lt_coe _).trans_le hle).ne'
  rw [← EReal.coe_toReal htop hbot] at hz hle hge
  obtain ⟨hfinite, hreal⟩ := isFinite_of_denotes hz
  rw [hreal]
  exact ⟨hfinite, EReal.coe_le_coe_iff.mp hle, EReal.coe_le_coe_iff.mp hge⟩

end Results

/-! ## Signs -/

/-- A real number with a sign in front. -/
def withSign (s : Sign) (x : ℝ) : ℝ :=
  match s with
  | .negative => -x
  | .positive => x

theorem dyadic_eq_withSign (s : Sign) (m : ℕ) (e : ℤ) : dyadic s m e = withSign s (m * 2 ^ e) := by
  cases s with
  | negative => exact dyadic_negative m e
  | positive => exact dyadic_positive m e

theorem dyadic_ne_zero (s : Sign) {m : ℕ} (hm : 0 < m) (e : ℤ) : dyadic s m e ≠ 0 := by
  cases s with
  | negative => exact (dyadic_neg hm e).ne
  | positive => exact (dyadic_pos hm e).ne'

theorem nearest_withSign (s : Sign) {x : ℝ} (hx : 0 < x) :
    nearest (withSign s x) = signed s (nearestMagnitude x) := by
  cases s with
  | negative => exact nearest_neg_of_pos hx
  | positive => exact nearest_of_nonneg hx.le

theorem withSign_mul (s t : Sign) (x y : ℝ) :
    withSign (s * t) (x * y) = withSign s x * withSign t y := by
  cases s <;> cases t
  · exact (neg_mul_neg x y).symm
  · exact (neg_mul x y).symm
  · exact (mul_neg x y).symm
  · rfl

theorem withSign_div (s t : Sign) (x y : ℝ) :
    withSign (s / t) (x / y) = withSign s x / withSign t y := by
  cases s <;> cases t
  · exact (neg_div_neg_eq x y).symm
  · exact (neg_div y x).symm
  · exact (div_neg x).symm
  · rfl

/-- A positive number that was rounded, with a sign in front. -/
theorem denotes_withSign (s : Sign) {x : ℝ} (hx : 0 < x) :
    Denotes (Float.Model.pack (carried s (halfEven (inUnits x)).toNat (lastPlace x))).unpack
      (nearest (withSign s x)) := by
  rw [nearest_withSign s hx]
  exact denotes_pack_nearest s hx

/-! ## Products -/

theorem le_lastPlace_mul {m n : ℕ} {e f : ℤ} (hm : 0 < m) (hn : 0 < n) (hme : Digits m e)
    (hnf : Digits n f) : e + f ≤ lastPlace ((m * n : ℕ) * 2 ^ (e + f)) := by
  have hpos : 0 < m * n := Nat.mul_pos hm hn
  rw [← targetExponent_eq hpos (Int.floor_natCast _), targetExponent_binary64, totalExponent]
  by_cases hfull : 2 ^ 52 ≤ m * n
  · have hlog := (Nat.le_log2 hpos.ne').mpr hfull
    omega
  · -- two short mantissas stand at the least exponent, and their product far below it
    have hm' : ¬ 2 ^ 52 ≤ m := fun h => hfull (h.trans (Nat.le_mul_of_pos_right m hn))
    have hn' : ¬ 2 ^ 52 ≤ n := fun h => hfull (h.trans (Nat.le_mul_of_pos_left n hm))
    have he := hme.full.resolve_left hm'
    have hf := hnf.full.resolve_left hn'
    omega

theorem denotes_mul_finite {s t : Sign} {m n : ℕ} {e f : ℤ} (hm : 0 < m) (hn : 0 < n)
    (hme : Digits m e) (hnf : Digits n f) :
    Denotes (Float.Model.pack
        (UnpackedFloat.mul .binary64 (.finite s m e hm) (.finite t n f hn))).unpack
      (nearest (dyadic s m e * dyadic t n f)) := by
  have hpos : 0 < m * n := Nat.mul_pos hm hn
  have hround := roundWithAccuracy_eq (s * t) hpos (holds_exact (m * n))
    (le_lastPlace_mul hm hn hme hnf)
  have hexact : ((m * n : ℕ) : ℝ) * 2 ^ (e + f) = m * 2 ^ e * (n * 2 ^ f) := by
    rw [zpow_add₀ (by norm_num)]
    push_cast
    ring
  rw [dyadic_eq_withSign, dyadic_eq_withSign, ← withSign_mul, ← hexact]
  show Denotes (Float.Model.pack (roundWithAccuracy .binary64 (s * t) (m * n) (e + f)
    .exact)).unpack _
  rw [hround]
  exact denotes_withSign _ (by positivity)

/-! ## Quotients -/

/-- The two extra bits of a quotient tell where its fraction lies. -/
theorem holds_fraction (m : ℕ) {n : ℕ} (hn : 0 < n) :
    Holds (.ofMantissaAndAccuracy (m / n) (accuracyOfFraction (m % n) n)) (m / n : ℝ) := by
  have hpos : (0 : ℝ) < n := by exact_mod_cast hn
  have hdiv : (m : ℝ) / n = (m / n : ℕ) + (m % n : ℕ) / n := by
    field_simp
    exact_mod_cast (Nat.div_add_mod m n).symm
  have hfraction : ((m % n : ℕ) : ℝ) / n < 1 := by
    rw [div_lt_one hpos]
    exact_mod_cast Nat.mod_lt m hn
  rw [hdiv]
  generalize m / n = q
  generalize m % n = r at *
  unfold accuracyOfFraction
  split_ifs with hr
  · rw [hr, Nat.cast_zero, zero_div, add_zero]
    exact holds_exact q
  · have hpositive : (0 : ℝ) < r / n := by
      apply div_pos _ hpos
      exact_mod_cast Nat.pos_of_ne_zero hr
    rcases lt_trichotomy (2 * r) n with hless | hhalf | hmore
    · have hless' : 2 * ((r : ℝ) / n) < 1 := by
        rw [← mul_div_assoc, div_lt_one hpos]
        exact_mod_cast hless
      rw [compare_lt_iff_lt.mpr hless]
      constructor <;> simp only [ExtendedMantissa.ofMantissaAndAccuracy, Bool.toNat_false,
        Nat.cast_zero] <;> grind
    · have hhalf' : 2 * ((r : ℝ) / n) = 1 := by
        rw [← mul_div_assoc, div_eq_one_iff_eq hpos.ne']
        exact_mod_cast hhalf
      rw [compare_eq_iff_eq.mpr hhalf]
      constructor <;> simp only [ExtendedMantissa.ofMantissaAndAccuracy, Bool.toNat_true,
        Nat.cast_one] <;> grind
    · have hmore' : 1 < 2 * ((r : ℝ) / n) := by
        rw [← mul_div_assoc, one_lt_div hpos]
        exact_mod_cast hmore
      rw [compare_gt_iff_gt.mpr hmore]
      constructor <;> simp only [ExtendedMantissa.ofMantissaAndAccuracy, Bool.toNat_true,
        Nat.cast_one] <;> grind

theorem targetExponent_zero_eq {e : ℤ} {y : ℝ} (hy : 0 < y) (hfloor : ⌊y⌋ = 0) (he : e ≤ -1074) :
    Format.binary64.targetExponent (totalExponent 0 e) = lastPlace (y * 2 ^ e) := by
  have hlt : y < 1 := by
    have h := Int.lt_floor_add_one y
    rw [hfloor] at h
    simpa using h
  have hlog : Int.log 2 (y * 2 ^ e) < e := by
    rw [← Int.lt_zpow_iff_log_lt (by norm_num) (by positivity)]
    push_cast
    exact mul_lt_of_lt_one_left (by positivity) hlt
  rw [lastPlace, targetExponent_binary64, totalExponent, Nat.log2_zero]
  omega

/-- Division shifts the dividend so far that the quotient has all the digits
that are kept, or reaches the least exponent. -/
theorem full_or_least_of_div {m n : ℕ} {e f p : ℤ} (hm : 0 < m) (hn : 0 < n)
    (hp : p = min (e - f)
      (Format.binary64.targetExponent (totalExponent m e - totalExponent n f))) :
    p ≤ -1074 ∨ 2 ^ 52 ≤ m <<< (e - f - p).toNat / n := by
  rw [targetExponent_binary64] at hp
  unfold totalExponent at hp
  by_cases hleast : p ≤ -1074
  · exact .inl hleast
  · right
    have hshift : (n.log2 : ℤ) + 53 ≤ m.log2 + (e - f - p).toNat := by omega
    generalize (e - f - p).toNat = k at *
    rw [Nat.le_div_iff_mul_le hn, Nat.shiftLeft_eq]
    calc 2 ^ 52 * n ≤ 2 ^ 52 * 2 ^ (n.log2 + 1) :=
          Nat.mul_le_mul_left _ Nat.lt_log2_self.le
      _ = 2 ^ (n.log2 + 53) := by rw [← pow_add]; congr 1; omega
      _ ≤ 2 ^ (m.log2 + k) := Nat.pow_le_pow_right (by norm_num) (by omega)
      _ = 2 ^ m.log2 * 2 ^ k := pow_add _ _ _
      _ ≤ m * 2 ^ k := Nat.mul_le_mul_right _ (Nat.log2_self_le hm.ne')

theorem denotes_div_finite {s t : Sign} {m n : ℕ} {e f : ℤ} (hm : 0 < m) (hn : 0 < n) :
    Denotes (Float.Model.pack
        (UnpackedFloat.div .binary64 (.finite s m e hm) (.finite t n f hn))).unpack
      (nearest (dyadic s m e / dyadic t n f)) := by
  obtain ⟨p, hp⟩ : ∃ p, p = min (e - f)
    (Format.binary64.targetExponent (totalExponent m e - totalExponent n f)) := ⟨_, rfl⟩
  have hdigits := full_or_least_of_div hm hn hp
  have hcore : divCore .binary64 m e n f
      = (m <<< (e - f - p).toNat / n, p,
        accuracyOfFraction (m <<< (e - f - p).toNat % n) n) := by
    rw [hp]
    rfl
  have hholds := holds_fraction (m <<< (e - f - p).toNat) hn
  have hfloor := hholds.floor_eq
  rw [mantissa_ofMantissaAndAccuracy] at hfloor
  have hexact : ((m <<< (e - f - p).toNat : ℕ) : ℝ) / n * 2 ^ p = m * 2 ^ e / (n * 2 ^ f) := by
    have hshift := shiftLeft_mul_zpow m (e := e - f) (f := p) (by omega)
    rw [div_mul_eq_mul_div, hshift, zpow_sub₀ (by norm_num)]
    field_simp
  have hpositive : (0 : ℝ) < ((m <<< (e - f - p).toNat : ℕ) : ℝ) / n := by
    rw [Nat.shiftLeft_eq]
    positivity
  rw [dyadic_eq_withSign, dyadic_eq_withSign, ← withSign_div, ← hexact]
  show Denotes (Float.Model.pack (match divCore .binary64 m e n f with
    | (q, p, a) => roundWithAccuracy .binary64 (s / t) q p a)).unpack _
  rw [hcore]
  generalize m <<< (e - f - p).toNat / n = q at *
  have htarget : Format.binary64.targetExponent (totalExponent q p)
      = lastPlace (((m <<< (e - f - p).toNat : ℕ) : ℝ) / n * 2 ^ p) := by
    rcases Nat.eq_zero_or_pos q with hq | hq
    · rw [hq] at hdigits hfloor ⊢
      exact targetExponent_zero_eq hpositive hfloor (hdigits.resolve_right (by norm_num))
    · exact targetExponent_eq hq hfloor p
  have hplace : p ≤ lastPlace (((m <<< (e - f - p).toNat : ℕ) : ℝ) / n * 2 ^ p) := by
    rw [← htarget, targetExponent_binary64, totalExponent]
    rcases hdigits with hleast | hfull
    · omega
    · have hlog := (Nat.le_log2 (by omega)).mpr hfull
      omega
  dsimp only
  rw [roundWithAccuracy_eq_carried _ hholds htarget hplace]
  exact denotes_withSign _ (by positivity)

/-! ## Operations on finite numbers -/

section Finite

variable {x y : Float}

theorem denotes_add_finite {s t : Sign} {m n : ℕ} {e f : ℤ} (hm : 0 < m) (hn : 0 < n) :
    Denotes (Float.Model.pack
        (UnpackedFloat.add .binary64 (.finite s m e hm) (.finite t n f hn))).unpack
      (nearest (dyadic s m e + dyadic t n f)) := by
  have hfirst := dyadic_decreaseExponent s m (min_le_left e f)
  have hsecond := dyadic_decreaseExponent t n (min_le_right e f)
  have hnormalize := denotes_pack_normalize
    (s.apply (decreaseExponent m e (min e f)).1 + t.apply (decreaseExponent n f (min e f)).1)
    (min e f)
  rw [Int.cast_add, add_mul] at hnormalize
  rw [← hfirst, ← hsecond]
  exact hnormalize

theorem denotes_add (hx : x.isFinite = true) (hy : y.isFinite = true) :
    Denotes (x + y).toModel.unpack (nearest (real x + real y)) := by
  show Denotes (Float.Model.pack (UnpackedFloat.add .binary64 x.toModel.unpack
    y.toModel.unpack)).unpack _
  rcases unpack_cases hx with ⟨s, hu, hrx⟩ | ⟨s, m, e, hm, hu, hme, he, hrx⟩ <;>
    rcases unpack_cases hy with ⟨t, hv, hry⟩ | ⟨t, n, f, hn, hv, hnf, hf, hry⟩ <;>
    rw [hu, hv, hrx, hry]
  · rw [add_zero, nearest_zero]
    simp only [UnpackedFloat.add]
    split_ifs
    · exact denotes_zero s
    · exact denotes_zero .positive
  · rw [zero_add]
    exact denotes_pack_dyadic t hn hnf hf
  · rw [add_zero]
    exact denotes_pack_dyadic s hm hme he
  · exact denotes_add_finite hm hn

theorem denotes_mul (hx : x.isFinite = true) (hy : y.isFinite = true) :
    Denotes (x * y).toModel.unpack (nearest (real x * real y)) := by
  show Denotes (Float.Model.pack (UnpackedFloat.mul .binary64 x.toModel.unpack
    y.toModel.unpack)).unpack _
  rcases unpack_cases hx with ⟨s, hu, hrx⟩ | ⟨s, m, e, hm, hu, hme, he, hrx⟩ <;>
    rcases unpack_cases hy with ⟨t, hv, hry⟩ | ⟨t, n, f, hn, hv, hnf, hf, hry⟩ <;>
    rw [hu, hv, hrx, hry]
  · rw [mul_zero, nearest_zero]
    exact denotes_zero _
  · rw [zero_mul, nearest_zero]
    exact denotes_zero _
  · rw [mul_zero, nearest_zero]
    exact denotes_zero _
  · exact denotes_mul_finite hm hn hme hnf

theorem denotes_div (hx : x.isFinite = true) (hy : y.isFinite = true) (hne : real y ≠ 0) :
    Denotes (x / y).toModel.unpack (nearest (real x / real y)) := by
  show Denotes (Float.Model.pack (UnpackedFloat.div .binary64 x.toModel.unpack
    y.toModel.unpack)).unpack _
  rcases unpack_cases hy with ⟨t, -, hry⟩ | ⟨t, n, f, hn, hv, hnf, hf, hry⟩
  · exact absurd hry hne
  rcases unpack_cases hx with ⟨s, hu, hrx⟩ | ⟨s, m, e, hm, hu, hme, he, hrx⟩ <;>
    rw [hu, hv, hrx, hry]
  · rw [zero_div, nearest_zero]
    exact denotes_zero _
  · exact denotes_div_finite hm hn

end Finite

/-! ## Infinities and NaN -/

section Special

variable {x y : Float} {u : UnpackedFloat}

theorem unpack_pack_infinity (s : Sign) : (Float.Model.pack (.infinity s)).unpack = .infinity s :=
  unpack_infinity s

theorem unpack_pack_nan : (Float.Model.pack .notANumber).unpack = .notANumber := rfl

theorem isFinite_of_pack (h : (Float.Model.pack u).unpack.isFinite = true) : u.isFinite = true := by
  cases u with
  | infinity s =>
    rw [unpack_pack_infinity] at h
    exact h
  | notANumber =>
    rw [unpack_pack_nan] at h
    exact h
  | zero s => rfl
  | finite s m e hm => rfl

theorem isNaN_pack (h : u.isNaN = true) : (Float.Model.pack u).unpack.isNaN = true := by
  cases u with
  | notANumber => rfl
  | infinity s => contradiction
  | zero s => contradiction
  | finite s m e hm => contradiction

/-! What is not finite spoils every sum, difference and product, and every
quotient that it is the dividend of. -/

theorem isFinite_of_add (h : (x + y).isFinite = true) : x.isFinite = true ∧ y.isFinite = true := by
  have h' : (UnpackedFloat.add .binary64 x.toModel.unpack y.toModel.unpack).isFinite = true :=
    isFinite_of_pack h
  show x.toModel.unpack.isFinite = true ∧ y.toModel.unpack.isFinite = true
  generalize x.toModel.unpack = u, y.toModel.unpack = v at h' ⊢
  cases u <;> cases v <;> try first | contradiction | exact ⟨rfl, rfl⟩
  simp only [UnpackedFloat.add] at h'
  split_ifs at h' <;> contradiction

theorem isFinite_of_sub (h : (x - y).isFinite = true) : x.isFinite = true ∧ y.isFinite = true := by
  have h' : (UnpackedFloat.sub .binary64 x.toModel.unpack y.toModel.unpack).isFinite = true :=
    isFinite_of_pack h
  show x.toModel.unpack.isFinite = true ∧ y.toModel.unpack.isFinite = true
  generalize x.toModel.unpack = u, y.toModel.unpack = v at h' ⊢
  cases u <;> cases v <;> try first | contradiction | exact ⟨rfl, rfl⟩
  simp only [UnpackedFloat.sub] at h'
  split_ifs at h' <;> contradiction

theorem isNaN_add (h : x.isNaN = true ∨ y.isNaN = true) : (x + y).isNaN = true := by
  apply isNaN_pack (u := UnpackedFloat.add .binary64 x.toModel.unpack y.toModel.unpack)
  replace h : x.toModel.unpack.isNaN = true ∨ y.toModel.unpack.isNaN = true := h
  generalize x.toModel.unpack = u, y.toModel.unpack = v at h ⊢
  cases u <;> cases v <;> first | rfl | simp [UnpackedFloat.isNaN] at h

theorem isNaN_sub (h : x.isNaN = true ∨ y.isNaN = true) : (x - y).isNaN = true := by
  apply isNaN_pack (u := UnpackedFloat.sub .binary64 x.toModel.unpack y.toModel.unpack)
  replace h : x.toModel.unpack.isNaN = true ∨ y.toModel.unpack.isNaN = true := h
  generalize x.toModel.unpack = u, y.toModel.unpack = v at h ⊢
  cases u <;> cases v <;> first | rfl | simp [UnpackedFloat.isNaN] at h

theorem isNaN_mul (h : x.isNaN = true ∨ y.isNaN = true) : (x * y).isNaN = true := by
  apply isNaN_pack (u := UnpackedFloat.mul .binary64 x.toModel.unpack y.toModel.unpack)
  replace h : x.toModel.unpack.isNaN = true ∨ y.toModel.unpack.isNaN = true := h
  generalize x.toModel.unpack = u, y.toModel.unpack = v at h ⊢
  cases u <;> cases v <;> first | rfl | simp [UnpackedFloat.isNaN] at h

/-! Otherwise NaN comes from two infinities, or from an infinity and a zero. -/

theorem unpack_of_infinite (hfinite : x.isFinite = false) (hnan : x.isNaN = false) :
    ∃ s, x.toModel.unpack = .infinity s := by
  replace hfinite : x.toModel.unpack.isFinite = false := hfinite
  replace hnan : x.toModel.unpack.isNaN = false := hnan
  generalize x.toModel.unpack = u at hfinite hnan ⊢
  cases u with
  | infinity s => exact ⟨s, rfl⟩
  | notANumber => contradiction
  | zero s => contradiction
  | finite s m e hm => contradiction

theorem isNaN_mul_of_zero (hx : x.isFinite = false) (hy : y.isFinite = true) (hzero : real y = 0) :
    (x * y).isNaN = true := by
  by_cases hnan : x.isNaN = true
  · exact isNaN_mul (.inl hnan)
  · obtain ⟨s, hu⟩ := unpack_of_infinite hx (by simpa using hnan)
    rcases unpack_cases hy with ⟨t, hv, -⟩ | ⟨t, n, f, hn, -, -, -, hreal⟩
    · apply isNaN_pack (u := UnpackedFloat.mul .binary64 x.toModel.unpack y.toModel.unpack)
      rw [hu, hv]
      rfl
    · rw [hzero] at hreal
      exact absurd hreal.symm (dyadic_ne_zero t hn f)

theorem isNaN_div_of_infinite (hx : x.isFinite = false) (hy : y.isFinite = false) :
    (x / y).isNaN = true := by
  apply isNaN_pack (u := UnpackedFloat.div .binary64 x.toModel.unpack y.toModel.unpack)
  replace hx : x.toModel.unpack.isFinite = false := hx
  replace hy : y.toModel.unpack.isFinite = false := hy
  generalize x.toModel.unpack = u, y.toModel.unpack = v at hx hy ⊢
  cases u <;> cases v <;> first | rfl | contradiction

theorem isNaN_add_eq_false (hx : x.isFinite = true) (hy : y.isNaN = false) :
    (x + y).isNaN = false := by
  by_cases hfinite : y.isFinite = true
  · exact (denotes_add hx hfinite).1
  · obtain ⟨t, hv⟩ := unpack_of_infinite (by simpa using hfinite) hy
    show (Float.Model.pack (UnpackedFloat.add .binary64 x.toModel.unpack
      y.toModel.unpack)).unpack.isNaN = false
    rcases unpack_cases hx with ⟨s, hu, -⟩ | ⟨s, m, e, hm, hu, -⟩ <;> rw [hu, hv]
    · exact congrArg UnpackedFloat.isNaN (unpack_pack_infinity t)
    · exact congrArg UnpackedFloat.isNaN (unpack_pack_infinity t)

theorem isNaN_mul_eq_false (hx : x.isNaN = false) (hy : y.isFinite = true) (hne : real y ≠ 0) :
    (x * y).isNaN = false := by
  by_cases hfinite : x.isFinite = true
  · exact (denotes_mul hfinite hy).1
  · obtain ⟨s, hu⟩ := unpack_of_infinite (by simpa using hfinite) hx
    show (Float.Model.pack (UnpackedFloat.mul .binary64 x.toModel.unpack
      y.toModel.unpack)).unpack.isNaN = false
    rcases unpack_cases hy with ⟨t, -, hreal⟩ | ⟨t, n, f, hn, hv, -⟩
    · exact absurd hreal hne
    · rw [hu, hv]
      exact congrArg UnpackedFloat.isNaN (unpack_pack_infinity (s * t))

/-- A finite part of an infinity is nothing. -/
theorem denotes_div_infinite (hx : x.isFinite = true) (hy : y.isFinite = false)
    (hnan : y.isNaN = false) : Denotes (x / y).toModel.unpack 0 := by
  obtain ⟨t, hv⟩ := unpack_of_infinite hy hnan
  show Denotes (Float.Model.pack (UnpackedFloat.div .binary64 x.toModel.unpack
    y.toModel.unpack)).unpack 0
  rcases unpack_cases hx with ⟨s, hu, -⟩ | ⟨s, m, e, hm, hu, -⟩ <;> rw [hu, hv]
  · exact denotes_zero _
  · exact denotes_zero _

end Special

/-! ## Differences that are not zero, sums that do not overflow -/

section Range

variable {x y c : Float}

/-- Finite numbers are whole multiples of the least positive one. -/
theorem exists_multiple (hx : x.isFinite = true) : ∃ n : ℤ, real x = n * 2 ^ (-1074 : ℤ) := by
  rcases unpack_cases hx with ⟨s, -, hreal⟩ | ⟨s, m, e, hm, -, hme, -, hreal⟩
  · exact ⟨0, by rw [hreal, Int.cast_zero, zero_mul]⟩
  · refine ⟨s.apply m * 2 ^ (e + 1074).toNat, ?_⟩
    have hleast := hme.least
    have hpow : (2 : ℝ) ^ (e + 1074).toNat * 2 ^ (-1074 : ℤ) = 2 ^ e := by
      rw [← zpow_natCast, ← zpow_add₀ (by norm_num)]
      congr 1
      omega
    rw [hreal, dyadic]
    push_cast
    rw [mul_assoc, hpow]

/-- The difference of different numbers is never rounded to zero. -/
theorem value_sub_pos (hx : x.isFinite = true) (hy : y.isFinite = true) (h : real y < real x) :
    0 < value (x - y) := by
  obtain ⟨m, hm⟩ := exists_multiple hx
  obtain ⟨n, hn⟩ := exists_multiple hy
  have hpow : (0 : ℝ) < 2 ^ (-1074 : ℤ) := by positivity
  have hlt : n < m := by
    rw [hm, hn] at h
    exact_mod_cast lt_of_mul_lt_mul_right h hpow.le
  have hgap : dyadic .positive 1 (-1074) ≤ real x - real y := by
    have hle : (1 : ℝ) ≤ m - n := by
      exact_mod_cast (by omega : 1 ≤ m - n)
    rw [dyadic_positive, hm, hn, ← sub_mul, Nat.cast_one]
    exact mul_le_mul_of_nonneg_right hle hpow.le
  have hleast : Digits 1 (-1074) := ⟨by norm_num, le_rfl, .inr rfl⟩
  have hvalue : value (x - y) = nearest (real x - real y) := (denotes_sub hx hy).2
  rw [hvalue]
  calc (0 : EReal) < dyadic .positive 1 (-1074) :=
        EReal.coe_pos.mpr (dyadic_pos one_pos (-1074))
    _ = nearest (dyadic .positive 1 (-1074)) :=
        (nearest_dyadic .positive one_pos hleast (by norm_num)).symm
    _ ≤ nearest (real x - real y) := nearest_mono hgap

instance : GradualScalar Float where
  beq_iff := beq_iff_le_and_le
  sub_pos {x y} hx hy h := by
    have hpos := value_sub_pos hy hx ((real_lt_real hx hy).mp h)
    rw [← value_zero] at hpos
    exact (lt_iff _ _).mpr ⟨rfl, (denotes_sub hy hx).1, hpos⟩

theorem halfEven_le_of_lt {n : ℤ} {r : ℝ} (h : r < n + 1 / 2) : halfEven r ≤ n := by
  have hfloor : ⌊r⌋ ≤ n := by
    rw [← Int.lt_add_one_iff, Int.floor_lt]
    push_cast
    linarith
  rcases hfloor.lt_or_eq with hlt | heq
  · have hle := halfEven_le_floor_add_one r
    omega
  · have hfract : Int.fract r < 1 / 2 := by
      rw [Int.fract, heq]
      linarith
    rw [halfEven, if_pos hfract, heq]

/-- Nothing is rounded to infinity unless it is half a unit beyond the largest
number. -/
theorem onGrid_lt {r : ℝ} (hr : 0 < r) (h : r < (2 ^ 53 - 1 / 2) * unit) : onGrid r < 2 ^ 1024 := by
  have hunit := unit_pos
  have hlog : Int.log 2 r < 1024 := by
    rw [← Int.lt_zpow_iff_log_lt (by norm_num) hr]
    calc r < (2 ^ 53 - 1 / 2) * unit := h
      _ ≤ 2 ^ 53 * unit := mul_le_mul_of_nonneg_right (by norm_num) hunit.le
      _ = ((2 : ℕ) : ℝ) ^ (1024 : ℤ) := by exact_mod_cast two_pow_eq_unit.symm
  have hplace : lastPlace r ≤ 971 := by
    unfold lastPlace
    omega
  rw [two_pow_eq_unit]
  unfold onGrid
  rcases hplace.lt_or_eq with hlt | heq
  · have hhalf : (2 : ℝ) ^ (970 : ℤ) < unit := zpow_lt_zpow_right₀ (by norm_num) (by norm_num)
    calc (halfEven (inUnits r) : ℝ) * 2 ^ lastPlace r ≤ 2 ^ 53 * 2 ^ (970 : ℤ) := by
          apply mul_le_mul
          · exact_mod_cast halfEven_inUnits_le r
          · exact zpow_le_zpow_right₀ (by norm_num) (by omega)
          · positivity
          · positivity
      _ < 2 ^ 53 * unit := mul_lt_mul_of_pos_left hhalf (by norm_num)
  · have hunits : inUnits r < ((2 ^ 53 - 1 : ℤ) : ℝ) + 1 / 2 := by
      rw [inUnits, heq]
      show r / unit < _
      rw [div_lt_iff₀ hunit]
      push_cast
      linarith
    have hrounded : (halfEven (inUnits r) : ℝ) ≤ ((2 ^ 53 - 1 : ℤ) : ℝ) := by
      exact_mod_cast halfEven_le_of_lt hunits
    rw [heq]
    calc (halfEven (inUnits r) : ℝ) * 2 ^ (971 : ℤ) ≤ ((2 ^ 53 - 1 : ℤ) : ℝ) * unit :=
          mul_le_mul_of_nonneg_right hrounded hunit.le
      _ < 2 ^ 53 * unit := mul_lt_mul_of_pos_right (by norm_num) hunit

theorem isFinite_of_abs_lt {r : ℝ} (hx : Denotes x.toModel.unpack (nearest r))
    (h : |r| < (2 ^ 53 - 1 / 2) * unit) : x.isFinite = true := by
  have hcapped : ∀ {q : ℝ}, 0 ≤ q → q < (2 ^ 53 - 1 / 2) * unit →
      nearestMagnitude q = onGrid q := by
    intro q hq hlt
    rcases hq.lt_or_eq with hpos | rfl
    · exact if_neg (onGrid_lt hpos hlt).not_ge
    · rw [nearestMagnitude_zero, onGrid_zero, EReal.coe_zero]
  rw [abs_lt] at h
  by_cases hr : 0 ≤ r
  · rw [nearest_of_nonneg hr, hcapped hr h.2] at hx
    exact (isFinite_of_denotes hx).1
  · have hneg : 0 < -r := by linarith
    have hnearest := nearest_neg_of_pos hneg
    rw [neg_neg, hcapped hneg.le (by linarith), ← EReal.coe_neg] at hnearest
    rw [hnearest] at hx
    exact (isFinite_of_denotes hx).1

theorem abs_real_le (hx : x.isFinite = true) : |real x| ≤ (2 ^ 53 - 1) * unit := by
  rcases unpack_cases hx with ⟨s, -, hreal⟩ | ⟨s, m, e, hm, -, hme, he, hreal⟩
  · rw [hreal, abs_zero]
    exact mul_nonneg (by norm_num) unit_pos.le
  · have habs : |real x| = m * 2 ^ e := by
      have hpos : (0 : ℝ) < m * 2 ^ e := by positivity
      rw [hreal]
      cases s with
      | negative => rw [dyadic_negative, abs_neg, abs_of_pos hpos]
      | positive => rw [dyadic_positive, abs_of_pos hpos]
    have hshort : (m : ℝ) ≤ 2 ^ 53 - 1 := by
      have h := hme.short
      exact_mod_cast (by omega : (m : ℤ) ≤ 2 ^ 53 - 1)
    rw [habs]
    apply mul_le_mul hshort (zpow_le_zpow_right₀ (by norm_num) he) (by positivity)
    norm_num

/-- What is small beside the largest unit may be added to any number. -/
theorem abs_add_lt (hx : x.isFinite = true) {r : ℝ} (hr : |r| < 1 / 2 * unit) :
    |real x + r| < (2 ^ 53 - 1 / 2) * unit := by
  have hle := abs_real_le hx
  have habs := abs_add_le (real x) r
  linarith

theorem isFinite_add (hx : x.isFinite = true) (hc : c.isFinite = true)
    (h : |real c| < 1 / 2 * unit) : (x + c).isFinite = true :=
  isFinite_of_abs_lt (denotes_add hx hc) (abs_add_lt hx h)

theorem isFinite_sub (hx : x.isFinite = true) (hc : c.isFinite = true)
    (h : |real c| < 1 / 2 * unit) : (x - c).isFinite = true := by
  have hsub : Denotes (x - c).toModel.unpack (nearest (real x - real c)) := denotes_sub hx hc
  rw [← abs_neg] at h
  rw [sub_eq_add_neg] at hsub
  exact isFinite_of_abs_lt hsub (abs_add_lt hx h)

end Range

end SwerveLocalization.Binary64
