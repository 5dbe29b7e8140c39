import Mathlib
import SwerveLocalization.Binary64.Arithmetic
import SwerveLocalization.Proofs.Binary64.Nearest

/-!
# The values of binary64 numbers

A binary64 number that is not NaN stands for an extended real number, its
`value`. Bits are left behind here: a comparison of two numbers compares their
values, and both zeros have one value. This rests on the form in which finite
numbers are stored, with 53 significant digits or with the least exponent.
-/

namespace SwerveLocalization.Binary64

open Float.Model Float.Model.UnpackedFloat

/-- The extended real number that an unpacked number stands for. NaN stands
for none; it is given the value zero. -/
noncomputable def unpackedValue : UnpackedFloat → EReal
  | .infinity .positive => ⊤
  | .infinity .negative => ⊥
  | .notANumber => 0
  | .zero _ => 0
  | .finite s m e _ => dyadic s m e

/-- The extended real number that a binary64 number stands for. -/
noncomputable def value (x : Float) : EReal := unpackedValue x.toModel.unpack

/-! ## The stored form -/

/-- Mantissa and exponent in the form in which finite numbers are stored: the
mantissa has all of its 53 digits, unless the exponent is the least one. -/
structure Digits (m : ℕ) (e : ℤ) : Prop where
  short : m < 2 ^ 53
  least : -1074 ≤ e
  full : 2 ^ 52 ≤ m ∨ e = -1074

/-- An unpacked number that can be stored as it is. -/
def Stored : UnpackedFloat → Prop
  | .finite _ m e _ => Digits m e ∧ e ≤ 971
  | _ => True

theorem toNat_implicit_append (b : BitVec 52) : (1#1 ++ b).toNat = 2 ^ 52 + b.toNat := by
  have hb := b.isLt
  rw [BitVec.toNat_append, ← Nat.shiftLeft_add_eq_or_of_lt hb]
  rfl

/-- Whatever 64 bits are unpacked to could be stored. -/
theorem stored_bits (b : BitVec 64) : Stored (UnpackedFloat.unpack .binary64 b) := by
  unfold UnpackedFloat.unpack
  dsimp only
  split_ifs with hones hzero hexp hmantissa
  · trivial
  · trivial
  · trivial
  · have hlt : (@unpackMantissa Format.binary64 b).toNat < 2 ^ 52 := BitVec.isLt _
    refine ⟨⟨by omega, ?_, Or.inr ?_⟩, ?_⟩ <;> rw [hexp]
    · rfl
    · rfl
    · show (-1074 : ℤ) ≤ 971
      norm_num
  · have hlt : (@unpackMantissa Format.binary64 b).toNat < 2 ^ 52 := BitVec.isLt _
    have hexp' : 0 < (@unpackExponent Format.binary64 b).toNat := by
      rw [Nat.pos_iff_ne_zero]
      intro h
      exact hexp (BitVec.eq_of_toNat_eq (by rw [h]; rfl))
    have hexp'' : (@unpackExponent Format.binary64 b).toNat < 2047 := by
      apply Nat.lt_of_le_of_ne (Nat.le_of_lt_succ (BitVec.isLt _))
      intro h
      exact hones (BitVec.eq_of_toNat_eq (by rw [h]; rfl))
    have happend := toNat_implicit_append (@unpackMantissa Format.binary64 b)
    refine ⟨⟨?_, ?_, Or.inl ?_⟩, ?_⟩
    · exact happend ▸ by omega
    · show -1074 ≤ ((@unpackExponent Format.binary64 b).toNat : ℤ) - (1023 + 52)
      omega
    · exact happend ▸ by omega
    · show ((@unpackExponent Format.binary64 b).toNat : ℤ) - (1023 + 52) ≤ 971
      omega

theorem stored_unpack (x : Float.Model) : Stored x.unpack := stored_bits x.toBits.toBitVec

/-! ## Comparisons -/

/-- Of two magnitudes in stored form the one with the larger exponent is the
larger one, whatever the mantissas. -/
theorem lt_of_exponent_lt {m₁ m₂ : ℕ} {e₁ e₂ : ℤ} (h₁ : Digits m₁ e₁) (h₂ : Digits m₂ e₂)
    (he : e₁ < e₂) : (m₁ : ℝ) * 2 ^ e₁ < m₂ * 2 ^ e₂ := by
  have hfull : 2 ^ 52 ≤ m₂ := by
    rcases h₂.full with h | h
    · exact h
    · have hleast := h₁.least
      omega
  calc (m₁ : ℝ) * 2 ^ e₁ < 2 ^ (53 : ℤ) * 2 ^ e₁ := by
        apply mul_lt_mul_of_pos_right _ (by positivity)
        exact_mod_cast h₁.short
    _ = 2 ^ (53 + e₁) := (zpow_add₀ (by norm_num) _ _).symm
    _ ≤ 2 ^ (52 + e₂) := zpow_le_zpow_right₀ (by norm_num) (by omega)
    _ = 2 ^ (52 : ℤ) * 2 ^ e₂ := zpow_add₀ (by norm_num) _ _
    _ ≤ m₂ * 2 ^ e₂ := by
        apply mul_le_mul_of_nonneg_right _ (by positivity)
        exact_mod_cast hfull

theorem compare_magnitudes {m₁ m₂ : ℕ} {e₁ e₂ : ℤ} (h₁ : Digits m₁ e₁) (h₂ : Digits m₂ e₂) :
    (compare e₁ e₂).then (compare m₁ m₂) = cmp ((m₁ : ℝ) * 2 ^ e₁) (m₂ * 2 ^ e₂) := by
  rcases lt_trichotomy e₁ e₂ with he | rfl | he
  · rw [compare_lt_iff_lt.mpr he, (cmp_eq_lt_iff _ _).mpr (lt_of_exponent_lt h₁ h₂ he)]
    rfl
  · have hpos : (0 : ℝ) < 2 ^ e₁ := by positivity
    rw [compare_eq_iff_eq.mpr rfl, cmp_mul_pos_right hpos, Nat.strictMono_cast.cmp_map_eq,
      cmp_eq_compare]
    rfl
  · rw [compare_gt_iff_gt.mpr he, (cmp_eq_gt_iff _ _).mpr (lt_of_exponent_lt h₂ h₁ he)]
    rfl

theorem compare_finite {s₁ s₂ : Sign} {m₁ m₂ : ℕ} {e₁ e₂ : ℤ} (hm₁ : 0 < m₁) (hm₂ : 0 < m₂)
    (h₁ : Digits m₁ e₁) (h₂ : Digits m₂ e₂) :
    (UnpackedFloat.finite s₁ m₁ e₁ hm₁).compare (.finite s₂ m₂ e₂ hm₂)
      = some (cmp (dyadic s₁ m₁ e₁) (dyadic s₂ m₂ e₂)) := by
  have hmagnitudes := compare_magnitudes h₁ h₂
  cases s₁ <;> cases s₂ <;> simp only [UnpackedFloat.compare, Option.some.injEq]
  case negative.negative =>
    rw [hmagnitudes, dyadic_negative, dyadic_negative, cmp_swap]
    exact (StrictAnti.cmp_map_eq (fun _ _ h => neg_lt_neg h) _ _).symm
  case negative.positive =>
    exact ((cmp_eq_lt_iff _ _).mpr ((dyadic_neg hm₁ e₁).trans (dyadic_pos hm₂ e₂))).symm
  case positive.negative =>
    exact ((cmp_eq_gt_iff _ _).mpr ((dyadic_neg hm₂ e₂).trans (dyadic_pos hm₁ e₁))).symm
  case positive.positive => rw [hmagnitudes, dyadic_positive, dyadic_positive]

/-- Unpacked numbers are compared as their values are. -/
theorem compare_unpacked {a b : UnpackedFloat} (ha : Stored a) (hb : Stored b)
    (hna : a.isNaN = false) (hnb : b.isNaN = false) :
    a.compare b = some (cmp (unpackedValue a) (unpackedValue b)) := by
  cases a with
  | notANumber => simp [UnpackedFloat.isNaN] at hna
  | infinity s =>
    cases b with
    | notANumber => simp [UnpackedFloat.isNaN] at hnb
    | infinity t => cases s <;> cases t <;> simp [UnpackedFloat.compare, unpackedValue, cmp, cmpUsing] <;> rfl
    | zero t => cases s <;> simp [UnpackedFloat.compare, unpackedValue, cmp, cmpUsing]
    | finite t m e hm => cases s <;> simp [UnpackedFloat.compare, unpackedValue, cmp, cmpUsing]
  | zero s =>
    cases b with
    | notANumber => simp [UnpackedFloat.isNaN] at hnb
    | infinity t => cases t <;> simp [UnpackedFloat.compare, unpackedValue, cmp, cmpUsing]
    | zero t => simp [UnpackedFloat.compare, unpackedValue]
    | finite t m e hm =>
      cases t <;> simp [UnpackedFloat.compare, unpackedValue, cmp, cmpUsing, dyadic_pos hm,
        dyadic_neg hm, (dyadic_neg hm e).le]
  | finite s m e hm =>
    cases b with
    | notANumber => simp [UnpackedFloat.isNaN] at hnb
    | infinity t => cases t <;> simp [UnpackedFloat.compare, unpackedValue, cmp, cmpUsing]
    | zero t =>
      cases s <;> simp [UnpackedFloat.compare, unpackedValue, cmp, cmpUsing, dyadic_pos hm,
        dyadic_neg hm, (dyadic_pos hm e).le]
    | finite t n f hn =>
      rw [compare_finite hm hn ha.1 hb.1]
      exact congrArg some (EReal.coe_strictMono.cmp_map_eq _ _).symm

theorem compare_of_isNaN {a b : UnpackedFloat} (h : a.isNaN = true ∨ b.isNaN = true) :
    a.compare b = none := by
  cases a <;> cases b <;> simp [UnpackedFloat.isNaN] at h <;> rfl

theorem compare_eq (x y : Float) :
    x.toModel.unpack.compare y.toModel.unpack
      = if x.isNaN = false ∧ y.isNaN = false then some (cmp (value x) (value y)) else none := by
  split_ifs with h
  · exact compare_unpacked (stored_unpack _) (stored_unpack _) h.1 h.2
  · apply compare_of_isNaN
    show x.isNaN = true ∨ y.isNaN = true
    grind

/-- A number is less than another if its value is. NaN is less than nothing,
and nothing is less than NaN. -/
theorem lt_iff (x y : Float) :
    x < y ↔ x.isNaN = false ∧ y.isNaN = false ∧ value x < value y := by
  have hlt : x < y ↔ x.toModel.unpack.compare y.toModel.unpack = some .lt := by
    show (decide (x.toModel < y.toModel)) = true ↔ _
    rw [decide_eq_true_iff]
    show (x.toModel.unpack.compare y.toModel.unpack == some .lt) = true ↔ _
    rw [beq_iff_eq]
  rw [hlt, compare_eq, ← cmp_eq_lt_iff]
  grind

/-- A number is at most another if its value is, with NaN left out as for
`<`. -/
theorem le_iff (x y : Float) :
    x ≤ y ↔ x.isNaN = false ∧ y.isNaN = false ∧ value x ≤ value y := by
  have hle : x ≤ y ↔ (x.toModel.unpack.compare y.toModel.unpack).any (·.isLE) = true := by
    show (decide (x.toModel ≤ y.toModel)) = true ↔ _
    rw [decide_eq_true_iff]
    rfl
  have hcmp : (cmp (value x) (value y)).isLE = true ↔ value x ≤ value y := by
    rcases lt_trichotomy (value x) (value y) with hlt | heq | hgt
    · simp [(cmp_eq_lt_iff _ _).mpr hlt, hlt.le]
    · simp [heq]
    · simp [(cmp_eq_gt_iff _ _).mpr hgt, hgt]
  rw [hle, compare_eq, ← hcmp]
  split_ifs with h
  · rw [Option.any_some]
    tauto
  · rw [Option.any_none]
    tauto

theorem beq_iff (x y : Float) :
    (x == y) = true ↔ x.isNaN = false ∧ y.isNaN = false ∧ value x = value y := by
  have hbeq : (x == y) = true ↔ x.toModel.unpack.compare y.toModel.unpack = some .eq := by
    show (x.toModel.unpack.compare y.toModel.unpack == some .eq) = true ↔ _
    rw [beq_iff_eq]
  rw [hbeq, compare_eq, ← cmp_eq_eq_iff (value x)]
  grind

theorem lt_iff_le_and_not_beq (x y : Float) : x < y ↔ x ≤ y ∧ ¬ (y == x) = true := by
  rw [lt_iff, le_iff, beq_iff]
  constructor
  · rintro ⟨hx, hy, hlt⟩
    exact ⟨⟨hx, hy, hlt.le⟩, fun h => hlt.ne' h.2.2⟩
  · rintro ⟨⟨hx, hy, hle⟩, hne⟩
    exact ⟨hx, hy, lt_of_le_of_ne hle fun h => hne ⟨hy, hx, h.symm⟩⟩

theorem beq_iff_le_and_le (x y : Float) : (x == y) = true ↔ x ≤ y ∧ y ≤ x := by
  rw [beq_iff, le_iff, le_iff, @le_antisymm_iff EReal]
  tauto

/-- A number is finite if its value is a real number. -/
theorem isFinite_iff (x : Float) :
    x.isFinite = true ↔ x.isNaN = false ∧ value x ≠ ⊤ ∧ value x ≠ ⊥ := by
  show x.toModel.unpack.isFinite = true ↔ x.toModel.unpack.isNaN = false ∧ _
  unfold value
  cases x.toModel.unpack with
  | infinity s => cases s <;> simp [UnpackedFloat.isFinite, unpackedValue]
  | notANumber => simp [UnpackedFloat.isFinite, UnpackedFloat.isNaN]
  | zero s => simp [UnpackedFloat.isFinite, UnpackedFloat.isNaN, unpackedValue]
  | finite s m e hm => simp [UnpackedFloat.isFinite, UnpackedFloat.isNaN, unpackedValue]

@[simp] theorem value_zero : value 0 = 0 := by
  have hunpack : (0 : Float).toModel.unpack = .zero .positive := by rfl
  rw [value, hunpack, unpackedValue]

end SwerveLocalization.Binary64
