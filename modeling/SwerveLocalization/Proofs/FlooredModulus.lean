import Mathlib
import SwerveLocalization.Modulus

/-!
# The floored modulus of machine integers

The remainder of a machine takes the sign of the dividend. Adding the divisor and
taking the remainder once more brings it to the side of the divisor, so on integers
without bounds the result is the floored modulus. Main statement: so it is on 64-bit
words, unless a step leaves the word. This happens in two ways: the least word is
divided by `-1`, or dividend and divisor have one sign and the sum is too large. In
both of them the first remainder was the result already, and nothing had to be added.
-/

namespace SwerveLocalization

/-! ## Integers without bounds -/

/-- Whether `r` is the representative of `a` modulo `b` on the side of `b`. -/
structure IsRepresentative (a b r : ℤ) : Prop where
  congruent : r ≡ a [ZMOD b]
  ofPos : 0 < b → 0 ≤ r ∧ r < b
  ofNeg : b < 0 → b < r ∧ r ≤ 0

variable {a b r s : ℤ}

theorem IsRepresentative.unique (hb : b ≠ 0) (hr : IsRepresentative a b r)
    (hs : IsRepresentative a b s) : r = s := by
  have hdvd : b ∣ r - s := (hs.congruent.trans hr.congruent.symm).dvd
  have hlt : |r - s| < |b| := by
    rcases hb.lt_or_gt with hneg | hpos
    · have hr' := hr.ofNeg hneg
      have hs' := hs.ofNeg hneg
      rw [abs_of_neg hneg, abs_lt]
      omega
    · have hr' := hr.ofPos hpos
      have hs' := hs.ofPos hpos
      rw [abs_of_pos hpos, abs_lt]
      omega
  exact sub_eq_zero.mp (Int.eq_zero_of_abs_lt_dvd ((abs_dvd b _).mpr hdvd) hlt)

theorem tmod_modEq (a b : ℤ) : a.tmod b ≡ a [ZMOD b] := by
  refine Int.modEq_iff_dvd.mpr ⟨a.tdiv b, ?_⟩
  rw [Int.tmod_def]
  ring

/-- A remainder has the sign of the dividend. -/
theorem tmod_sign (a b : ℤ) : (0 ≤ a → 0 ≤ a.tmod b) ∧ (a ≤ 0 → a.tmod b ≤ 0) := by
  refine ⟨Int.tmod_nonneg b, fun ha => ?_⟩
  have h := Int.tmod_nonneg b (neg_nonneg.mpr ha)
  rw [Int.neg_tmod] at h
  omega

/-- A remainder is smaller than the divisor. -/
theorem tmod_bounds (a : ℤ) (hb : b ≠ 0) : -|b| < a.tmod b ∧ a.tmod b < |b| := by
  rcases hb.lt_or_gt with hneg | hpos
  · rw [abs_of_neg hneg, ← Int.tmod_neg]
    exact ⟨Int.lt_tmod_of_pos a (neg_pos.mpr hneg), Int.tmod_lt_of_pos a (neg_pos.mpr hneg)⟩
  · rw [abs_of_pos hpos]
    exact ⟨Int.lt_tmod_of_pos a hpos, Int.tmod_lt_of_pos a hpos⟩

/-- A remainder that has the sign of the divisor, or none, is a representative. -/
theorem isRepresentative_tmod (hb : b ≠ 0) (h : 0 ≤ a ∧ 0 < b ∨ a ≤ 0 ∧ b < 0) :
    IsRepresentative a b (a.tmod b) := by
  obtain ⟨hnonneg, hnonpos⟩ := tmod_sign a b
  obtain ⟨hlower, hupper⟩ := tmod_bounds a hb
  refine ⟨tmod_modEq a b, fun hpos => ?_, fun hneg => ?_⟩
  · rw [abs_of_pos hpos] at hupper
    omega
  · rw [abs_of_neg hneg] at hlower
    omega

/-- With the divisor added, every remainder comes to the side of the divisor. -/
theorem isRepresentative_tmod_add (a : ℤ) (hb : b ≠ 0) :
    IsRepresentative a b ((a.tmod b + b).tmod b) := by
  obtain ⟨hlower, hupper⟩ := tmod_bounds a hb
  have hside : 0 ≤ a.tmod b + b ∧ 0 < b ∨ a.tmod b + b ≤ 0 ∧ b < 0 := by
    rcases hb.lt_or_gt with hneg | hpos
    · rw [abs_of_neg hneg] at hupper
      omega
    · rw [abs_of_pos hpos] at hlower
      omega
  obtain ⟨hcongruent, hofPos, hofNeg⟩ := isRepresentative_tmod hb hside
  refine ⟨hcongruent.trans ?_, hofPos, hofNeg⟩
  calc a.tmod b + b ≡ a.tmod b + 0 [ZMOD b] := (Int.modEq_zero_iff_dvd.mpr dvd_rfl).add_left _
    _ = a.tmod b := add_zero _
    _ ≡ a [ZMOD b] := tmod_modEq a b

/-- The quotient of two words is a word, except for that of the least one by `-1`. -/
theorem tdiv_range (hlower : -2 ^ 63 ≤ a) (hupper : a < 2 ^ 63) (hb : b ≠ 0) :
    -2 ^ 63 ≤ a.tdiv b ∧ a.tdiv b < 2 ^ 63 ↔ ¬ (a = -2 ^ 63 ∧ b = -1) := by
  constructor
  · rintro hrange ⟨rfl, rfl⟩
    rw [Int.tdiv_neg, Int.tdiv_one] at hrange
    omega
  · intro hnot
    by_cases hunit : b.natAbs = 1
    · rcases Int.natAbs_eq_iff.mp hunit with rfl | rfl
      · rw [Nat.cast_one, Int.tdiv_one]
        exact ⟨hlower, hupper⟩
      · rw [Nat.cast_one, Int.tdiv_neg, Int.tdiv_one]
        rw [Nat.cast_one] at hnot
        omega
    · have hquotient : (a.tdiv b).natAbs = a.natAbs / b.natAbs := Int.natAbs_tdiv a b
      have hhalf : a.natAbs / b.natAbs ≤ a.natAbs / 2 := Nat.div_le_div_left (by omega) two_pos
      omega

/-! ## Words -/

section Words

variable {a b r : Int64}

theorem fitsInt64_iff (n : ℤ) : fitsInt64 n = true ↔ -2 ^ 63 ≤ n ∧ n < 2 ^ 63 := by
  rw [fitsInt64, Bool.and_eq_true, decide_eq_true_eq, decide_eq_true_eq, Int64.toInt_minValue,
    Int64.toInt_maxValue, Int.le_sub_one_iff]

theorem toInt_ne_zero (hb : b ≠ 0) : b.toInt ≠ 0 := fun h => hb (Int64.toInt_inj.mp h)

/-- The two remainders and the sum between them, where the sum is a word. -/
theorem toInt_flooredMod (hsum : fitsInt64 (a.toInt.tmod b.toInt + b.toInt) = true) :
    (flooredMod a b).toInt = (a.toInt.tmod b.toInt + b.toInt).tmod b.toInt := by
  obtain ⟨hlower, hupper⟩ := (fitsInt64_iff _).mp hsum
  unfold flooredMod
  rw [Int64.toInt_mod, Int64.toInt_add, Int64.toInt_mod, Int.bmod_eq_of_le (by omega) (by omega)]

/-- What a word modulus is: nothing if a step leaves the word, and otherwise the steps. -/
theorem flooredMod64?_eq (hb : b ≠ 0) :
    flooredMod64? a b =
      if a = Int64.minValue ∧ b = -1 then none
      else if fitsInt64 (a.toInt.tmod b.toInt + b.toInt) = true then some (flooredMod a b)
      else none := by
  have hquotient : fitsInt64 (a.toInt.tdiv b.toInt) = true ↔ ¬ (a = Int64.minValue ∧ b = -1) := by
    rw [fitsInt64_iff, tdiv_range a.le_toInt a.toInt_lt (toInt_ne_zero hb), ← Int64.toInt_minValue,
      Int64.toInt_inj, ← Int64.toInt_inj (y := -1)]
    rfl
  unfold flooredMod64?
  rw [if_neg hb, Int64.toInt_mod]
  by_cases hleast : a = Int64.minValue ∧ b = -1
  · rw [if_pos hleast, if_pos]
    simpa using mt hquotient.mp (not_not.mpr hleast)
  · rw [if_neg hleast, if_neg (by simpa using hquotient.mpr hleast)]
    cases fitsInt64 (a.toInt.tmod b.toInt + b.toInt) <;> rfl

/-- What goes wrong on the way to the representative `r`. -/
def LeavesWord (a b r : Int64) : Prop :=
  (a = Int64.minValue ∧ b = -1) ∨
    (0 < a ∧ 0 < b ∧ 2 ^ 63 ≤ r.toInt + b.toInt) ∨
    (a < 0 ∧ b < 0 ∧ r.toInt + b.toInt < -2 ^ 63)

/-- Where dividend and divisor have one sign, the first remainder is the representative. -/
theorem tmod_eq_of_sameSign (hr : IsRepresentative a.toInt b.toInt r.toInt)
    (h : 0 < a ∧ 0 < b ∨ a < 0 ∧ b < 0) : a.toInt.tmod b.toInt = r.toInt := by
  simp only [Int64.lt_iff_toInt_lt, Int64.toInt_zero] at h
  have hb : b.toInt ≠ 0 := by omega
  exact (isRepresentative_tmod hb (by omega)).unique hb hr

/-- A sum of numbers of different signs stays in the word. -/
theorem fitsInt64_sum (hb : b ≠ 0) (hr : IsRepresentative a.toInt b.toInt r.toInt) :
    fitsInt64 (a.toInt.tmod b.toInt + b.toInt) = false ↔
      (0 < a ∧ 0 < b ∧ 2 ^ 63 ≤ r.toInt + b.toInt) ∨
        (a < 0 ∧ b < 0 ∧ r.toInt + b.toInt < -2 ^ 63) := by
  have hb' := toInt_ne_zero hb
  have hleast := b.le_toInt
  have hgreatest := b.toInt_lt
  rw [← Bool.not_eq_true, fitsInt64_iff]
  by_cases hsign : 0 < a ∧ 0 < b ∨ a < 0 ∧ b < 0
  · rw [tmod_eq_of_sameSign hr hsign]
    obtain ⟨-, hofPos, hofNeg⟩ := hr
    simp only [Int64.lt_iff_toInt_lt, Int64.toInt_zero] at hsign ⊢
    omega
  · obtain ⟨hnonneg, hnonpos⟩ := tmod_sign a.toInt b.toInt
    obtain ⟨hlower, hupper⟩ := tmod_bounds a.toInt hb'
    simp only [Int64.lt_iff_toInt_lt, Int64.toInt_zero] at hsign ⊢
    rcases hb'.lt_or_gt with hneg | hpos
    · rw [abs_of_neg hneg] at hlower hupper
      omega
    · rw [abs_of_pos hpos] at hlower hupper
      omega

/-- For any divisor but zero there is one representative of the dividend on the side of the
divisor, and it is what comes out unless a step leaves the word. That happens only where the
remainder of the first step is the representative already. -/
theorem flooredMod64?_representative (a b : Int64) (hb : b ≠ 0) :
    ∃ r : Int64, IsRepresentative a.toInt b.toInt r.toInt ∧
      (∀ s : Int64, IsRepresentative a.toInt b.toInt s.toInt → s = r) ∧
      (¬ LeavesWord a b r → flooredMod64? a b = some r) ∧
      (LeavesWord a b r → flooredMod64? a b = none ∧ a.toInt.tmod b.toInt = r.toInt) := by
  have hb' := toInt_ne_zero hb
  have hrepresentative := isRepresentative_tmod_add a.toInt hb'
  obtain ⟨r, hr⟩ : ∃ r : Int64, r.toInt = (a.toInt.tmod b.toInt + b.toInt).tmod b.toInt := by
    obtain ⟨hlower, hupper⟩ := tmod_bounds (a.toInt.tmod b.toInt + b.toInt) hb'
    have hmagnitude : |b.toInt| ≤ 2 ^ 63 := abs_le.mpr ⟨b.le_toInt, b.toInt_lt.le⟩
    exact ⟨.ofInt _, Int64.toInt_ofInt_of_le (by omega) (by omega)⟩
  rw [← hr] at hrepresentative
  have hsum := fitsInt64_sum hb hrepresentative
  refine ⟨r, hrepresentative, fun s hs => Int64.toInt_inj.mp (hs.unique hb' hrepresentative), ?_, ?_⟩
  · intro hstays
    obtain ⟨hleast, hfits⟩ := not_or.mp hstays
    rw [← hsum, Bool.not_eq_false] at hfits
    rw [flooredMod64?_eq hb, if_neg hleast, if_pos hfits]
    exact congrArg some (Int64.toInt_inj.mp ((toInt_flooredMod hfits).trans hr.symm))
  · rintro (⟨rfl, rfl⟩ | hleaves)
    · refine ⟨rfl, ?_⟩
      exact tmod_eq_of_sameSign hrepresentative (by decide)
    · refine ⟨?_, tmod_eq_of_sameSign hrepresentative ?_⟩
      · rw [flooredMod64?_eq hb, hsum.mpr hleaves]
        simp
      · exact hleaves.imp (fun h => ⟨h.1, h.2.1⟩) (fun h => ⟨h.1, h.2.1⟩)

/-- The two ends of the word, one divided by the other. -/
theorem flooredMod64?_representative_ends :
    flooredMod64? Int64.minValue Int64.maxValue = some 9223372036854775806 ∧
      flooredMod64? Int64.maxValue Int64.minValue = some (-1) := by
  constructor
  · obtain ⟨r, -, hunique, hstays, -⟩ :=
      flooredMod64?_representative Int64.minValue Int64.maxValue (by decide)
    obtain rfl : 9223372036854775806 = r := hunique _ ⟨by decide, by decide, by decide⟩
    exact hstays (by unfold LeavesWord; decide)
  · obtain ⟨r, -, hunique, hstays, -⟩ :=
      flooredMod64?_representative Int64.maxValue Int64.minValue (by decide)
    obtain rfl : -1 = r := hunique _ ⟨by decide, by decide, by decide⟩
    exact hstays (by unfold LeavesWord; decide)

/-- A remainder that was right already, and a sum that leaves the word: unchecked, it comes
out on the wrong side of the divisor. -/
theorem not_representative_largeDivisor :
    flooredMod64? 1 Int64.maxValue = none ∧ flooredMod 1 Int64.maxValue = -1 ∧
      ¬ ∀ a b : Int64, b ≠ 0 →
        ∃ r, flooredMod64? a b = some r ∧ IsRepresentative a.toInt b.toInt r.toInt := by
  have hnone : flooredMod64? 1 Int64.maxValue = none := by decide
  refine ⟨hnone, by decide, fun h => ?_⟩
  obtain ⟨r, hr, -⟩ := h 1 Int64.maxValue (by decide)
  rw [hnone] at hr
  contradiction

end Words

end SwerveLocalization
