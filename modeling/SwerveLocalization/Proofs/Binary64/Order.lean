import Mathlib
import SwerveLocalization.Proofs.Binary64.Operations

/-!
# The total order of binary64 numbers is numeric

Samples and calibration points are sorted by the places of their bits. Among
numbers that are not NaN this is the order of their values: the ordinal of a
number, counted from its zero, grows with its magnitude, and negative numbers
are counted downwards. Only the two zeros have one value and two places.
-/

namespace SwerveLocalization.Binary64

open Float.Model Float.Model.UnpackedFloat

/-- The sign of an unpacked number; NaN counts as positive. -/
def signOf : UnpackedFloat → Sign
  | .infinity s => s
  | .notANumber => .positive
  | .zero s => s
  | .finite s _ _ _ => s

/-- How many numbers of the same sign lie between an unpacked number and zero,
itself included. -/
def ordinal : UnpackedFloat → ℕ
  | .infinity _ => 2047 * 2 ^ 52
  | .notANumber => 0
  | .zero _ => 0
  | .finite _ m e _ => (e + 1074).toNat * 2 ^ 52 + m

/-- The magnitude of an unpacked number. -/
noncomputable def magnitudeOf : UnpackedFloat → EReal
  | .infinity _ => ⊤
  | .notANumber => 0
  | .zero _ => 0
  | .finite _ m e _ => dyadic .positive m e

theorem unpackedValue_eq_signed (u : UnpackedFloat) :
    unpackedValue u = signed (signOf u) (magnitudeOf u) := by
  cases u with
  | notANumber => rfl
  | infinity s => cases s <;> rfl
  | zero s => cases s <;> simp [unpackedValue, signOf, magnitudeOf, signed]
  | finite s m e hm =>
    cases s with
    | negative => exact congrArg Real.toEReal (dyadic_neg_sign .positive m e)
    | positive => rfl

theorem magnitudeOf_nonneg (u : UnpackedFloat) : 0 ≤ magnitudeOf u := by
  cases u with
  | infinity s => exact le_top
  | notANumber => exact le_rfl
  | zero s => exact le_rfl
  | finite s m e hm => exact EReal.coe_nonneg.mpr (dyadic_pos hm e).le

theorem lt_of_ordinal_lt {m n : ℕ} {e f : ℤ} (hme : Digits m e) (hnf : Digits n f)
    (h : (e + 1074).toNat * 2 ^ 52 + m < (f + 1074).toNat * 2 ^ 52 + n) :
    (m : ℝ) * 2 ^ e < n * 2 ^ f := by
  have hleast := hme.least
  have hleast' := hnf.least
  rcases lt_trichotomy e f with hlt | rfl | hgt
  · exact lt_of_exponent_lt hme hnf hlt
  · apply mul_lt_mul_of_pos_right _ (by positivity)
    exact_mod_cast (by omega : m < n)
  · -- the larger exponent comes with a full mantissa, so its place is the later one
    have hfull : 2 ^ 52 ≤ m := hme.full.resolve_right (by omega)
    have hshort := hnf.short
    omega

theorem le_of_ordinal_le {m n : ℕ} {e f : ℤ} (hme : Digits m e) (hnf : Digits n f)
    (h : (e + 1074).toNat * 2 ^ 52 + m ≤ (f + 1074).toNat * 2 ^ 52 + n) :
    (m : ℝ) * 2 ^ e ≤ n * 2 ^ f := by
  rcases h.lt_or_eq with hlt | heq
  · exact (lt_of_ordinal_lt hme hnf hlt).le
  · obtain ⟨hshort, hleast, hfull⟩ := hme
    obtain ⟨hshort', hleast', hfull'⟩ := hnf
    obtain rfl : e = f := by omega
    obtain rfl : m = n := by omega
    exact le_rfl

theorem magnitudeOf_le {u v : UnpackedFloat} (hu : Stored u) (hv : Stored v)
    (hnu : u.isNaN = false) (h : ordinal u ≤ ordinal v) : magnitudeOf u ≤ magnitudeOf v := by
  cases u with
  | notANumber => contradiction
  | zero s => exact magnitudeOf_nonneg v
  | infinity s =>
    cases v with
    | infinity t => exact le_rfl
    | notANumber => simp [ordinal] at h
    | zero t => simp [ordinal] at h
    | finite t n f hn =>
      obtain ⟨hnf, hf⟩ := hv
      have hshort := hnf.short
      simp only [ordinal] at h
      omega
  | finite s m e hm =>
    cases v with
    | infinity t => exact le_top
    | notANumber =>
      simp only [ordinal] at h
      omega
    | zero t =>
      simp only [ordinal] at h
      omega
    | finite t n f hn =>
      refine EReal.coe_le_coe_iff.mpr ?_
      rw [dyadic_positive, dyadic_positive]
      exact le_of_ordinal_le hu.1 hv.1 h

/-- What a sign adds to the bits. -/
def signWeight : Sign → ℕ
  | .negative => 2 ^ 63
  | .positive => 0

theorem signWeight_ofBitVec (b : BitVec 1) : signWeight (Sign.ofBitVec b) = b.toNat * 2 ^ 63 := by
  have hb : b.toNat < 2 := b.isLt
  unfold Sign.ofBitVec
  split_ifs with hzero
  · rw [hzero]
    rfl
  · have hone : b.toNat ≠ 0 := fun h => hzero (BitVec.eq_of_toNat_eq h)
    have hvalue : b.toNat = 1 := by omega
    rw [hvalue]
    rfl

/-! ## The fields of 64 bits -/

section Fields

variable (b : BitVec 64)

theorem toNat_unpackMantissa : (@unpackMantissa Format.binary64 b).toNat = b.toNat % 2 ^ 52 := rfl

theorem toNat_unpackExponent :
    (@unpackExponent Format.binary64 b).toNat = b.toNat / 2 ^ 52 % 2 ^ 11 := by
  show (b.toNat >>> 52) % 2 ^ 11 = _
  rw [Nat.shiftRight_eq_div_pow]

theorem signWeight_unpackSign :
    signWeight (Sign.ofBitVec (@unpackSign Format.binary64 b)) = b.toNat / 2 ^ 63 * 2 ^ 63 := by
  have hb := b.isLt
  rw [signWeight_ofBitVec]
  show (b.toNat >>> 63) % 2 * 2 ^ 63 = _
  rw [Nat.shiftRight_eq_div_pow]
  omega

end Fields

/-- The bits of a number are its ordinal, with the sign bit in front. -/
theorem toNat_bits {b : BitVec 64} (hnan : (UnpackedFloat.unpack .binary64 b).isNaN = false) :
    b.toNat = ordinal (UnpackedFloat.unpack .binary64 b)
      + signWeight (signOf (UnpackedFloat.unpack .binary64 b)) := by
  have hb := b.isLt
  have hmantissa := toNat_unpackMantissa b
  have hexponent := toNat_unpackExponent b
  have hsign := signWeight_unpackSign b
  unfold UnpackedFloat.unpack at hnan ⊢
  dsimp only at hnan ⊢
  split_ifs at hnan ⊢ with hones hzero hleast hmantissa'
  · have hexponent' : 2047 = b.toNat / 2 ^ 52 % 2 ^ 11 := by rw [← hexponent, hones]; rfl
    have hmantissa'' : 0 = b.toNat % 2 ^ 52 := by rw [← hmantissa, hzero]; rfl
    simp only [ordinal, signOf, hsign]
    omega
  · contradiction
  · have hexponent' : 0 = b.toNat / 2 ^ 52 % 2 ^ 11 := by rw [← hexponent, hleast]; rfl
    have hmantissa'' : 0 = b.toNat % 2 ^ 52 := by rw [← hmantissa, hmantissa']; rfl
    simp only [ordinal, signOf, hsign]
    omega
  · have hexponent' : 0 = b.toNat / 2 ^ 52 % 2 ^ 11 := by rw [← hexponent, hleast]; rfl
    simp only [ordinal, signOf, hsign, hmantissa, hexponent]
    show _ = (((b.toNat / 2 ^ 52 % 2 ^ 11 : ℕ) : ℤ) - (1023 + 52) + 1 + 1074).toNat * 2 ^ 52 + _ + _
    omega
  · have hexponent' : b.toNat / 2 ^ 52 % 2 ^ 11 ≠ 0 := by
      intro h
      exact hleast (BitVec.eq_of_toNat_eq (hexponent.trans h))
    have happend := toNat_implicit_append (@unpackMantissa Format.binary64 b)
    simp only [ordinal, signOf, hsign, hexponent]
    show _ = (((b.toNat / 2 ^ 52 % 2 ^ 11 : ℕ) : ℤ) - (1023 + 52) + 1074).toNat * 2 ^ 52
      + (1#1 ++ @unpackMantissa Format.binary64 b).toNat + _
    rw [happend, hmantissa]
    omega

theorem toNat_toBits {x : Float} (hx : x.isNaN = false) :
    x.toBits.toNat = ordinal x.toModel.unpack + signWeight (signOf x.toModel.unpack) :=
  toNat_bits hx

theorem ordinal_lt {u : UnpackedFloat} (hu : Stored u) : ordinal u < 2 ^ 63 := by
  cases u with
  | infinity s => simp [ordinal]
  | notANumber => simp [ordinal]
  | zero s => simp [ordinal]
  | finite s m e hm =>
    obtain ⟨hdigits, he⟩ := hu
    have hshort := hdigits.short
    simp only [ordinal]
    omega

/-- The rank of a number is its ordinal, and negative numbers are counted
downwards. -/
theorem rank_eq {x : Float} (hx : x.isNaN = false) :
    rank x = match signOf x.toModel.unpack with
      | .negative => -1 - (ordinal x.toModel.unpack : ℤ)
      | .positive => ordinal x.toModel.unpack := by
  have hlt := ordinal_lt (stored_unpack x.toModel)
  unfold rank bitsRank signBit
  simp only [toNat_toBits hx]
  cases signOf x.toModel.unpack with
  | negative =>
    have hweight : signWeight .negative = 2 ^ 63 := rfl
    rw [if_neg (by omega), hweight]
    push_cast
    omega
  | positive =>
    have hweight : signWeight .positive = 0 := rfl
    rw [if_pos (by omega), hweight]
    rfl

/-- Numbers come in the order of their values. -/
theorem le_of_totalLe {x y : Float} (hx : x.isNaN = false) (hy : y.isNaN = false)
    (h : totalLe x y = true) : x ≤ y := by
  rw [totalLe_iff, rank_eq hx, rank_eq hy] at h
  rw [le_iff]
  refine ⟨hx, hy, ?_⟩
  have hsx := stored_unpack x.toModel
  have hsy := stored_unpack y.toModel
  have hnx : x.toModel.unpack.isNaN = false := hx
  have hny : y.toModel.unpack.isNaN = false := hy
  unfold value
  rw [unpackedValue_eq_signed, unpackedValue_eq_signed]
  generalize x.toModel.unpack = u, y.toModel.unpack = v at h hsx hsy hnx hny ⊢
  cases hu : signOf u <;> cases hv : signOf v <;> rw [hu, hv] at h <;> simp only [signed] at h ⊢
  · rw [EReal.neg_le_neg_iff]
    exact magnitudeOf_le hsy hsx hny (by omega)
  · calc -magnitudeOf u ≤ 0 := by
          rw [EReal.neg_le, neg_zero]
          exact magnitudeOf_nonneg u
      _ ≤ magnitudeOf v := magnitudeOf_nonneg v
  · omega
  · exact magnitudeOf_le hsx hsy hnx (by omega)

instance : OrderedScalar Float where
  totalLe_trans _ _ _ := totalLe_trans
  totalLe_total := totalLe_total
  le_of_totalLe := le_of_totalLe

/-! ## One value at two places -/

theorem magnitudeOf_lt {u v : UnpackedFloat} (hu : Stored u) (hv : Stored v)
    (hnu : u.isNaN = false) (h : ordinal u < ordinal v) : magnitudeOf u < magnitudeOf v := by
  cases v with
  | notANumber => simp [ordinal] at h
  | zero t => simp [ordinal] at h
  | infinity t =>
    cases u with
    | notANumber => contradiction
    | infinity s => simp [ordinal] at h
    | zero s => exact EReal.zero_lt_top
    | finite s m e hm => exact EReal.coe_lt_top _
  | finite t n f hn =>
    cases u with
    | notANumber => contradiction
    | zero s => exact EReal.coe_pos.mpr (dyadic_pos hn f)
    | infinity s =>
      obtain ⟨hnf, hf⟩ := hv
      have hshort := hnf.short
      simp only [ordinal] at h
      omega
    | finite s m e hm =>
      refine EReal.coe_lt_coe_iff.mpr ?_
      rw [dyadic_positive, dyadic_positive]
      exact lt_of_ordinal_lt hu.1 hv.1 h

theorem ordinal_eq_of_magnitudeOf_eq {u v : UnpackedFloat} (hu : Stored u) (hv : Stored v)
    (hnu : u.isNaN = false) (hnv : v.isNaN = false) (h : magnitudeOf u = magnitudeOf v) :
    ordinal u = ordinal v := by
  rcases lt_trichotomy (ordinal u) (ordinal v) with hlt | heq | hgt
  · exact absurd h (magnitudeOf_lt hu hv hnu hlt).ne
  · exact heq
  · exact absurd h (magnitudeOf_lt hv hu hnv hgt).ne'

theorem ordinal_eq_zero_of_magnitudeOf_eq_zero {u : UnpackedFloat} (hu : Stored u)
    (hnu : u.isNaN = false) (h : magnitudeOf u = 0) : ordinal u = 0 :=
  ordinal_eq_of_magnitudeOf_eq (v := .zero .positive) hu trivial hnu rfl h

theorem eq_zero_of_neg_eq {a b : EReal} (ha : 0 ≤ a) (hb : 0 ≤ b) (h : -a = b) : a = 0 ∧ b = 0 := by
  have hb' : b = 0 := le_antisymm (h ▸ EReal.neg_le_zero.mpr ha) hb
  rw [hb', EReal.neg_eq_zero_iff] at h
  exact ⟨h, hb'⟩

/-- Equal numbers have one rank, unless they are the two zeros. -/
theorem rank_of_beq {x y : Float} (h : (x == y) = true) :
    rank x = rank y ∨ (rank x = -1 ∧ rank y = 0) ∨ (rank x = 0 ∧ rank y = -1) := by
  obtain ⟨hx, hy, hvalue⟩ := (beq_iff x y).mp h
  rw [rank_eq hx, rank_eq hy]
  have hsx := stored_unpack x.toModel
  have hsy := stored_unpack y.toModel
  have hnx : x.toModel.unpack.isNaN = false := hx
  have hny : y.toModel.unpack.isNaN = false := hy
  unfold value at hvalue
  rw [unpackedValue_eq_signed, unpackedValue_eq_signed] at hvalue
  generalize x.toModel.unpack = u, y.toModel.unpack = v at hvalue hsx hsy hnx hny ⊢
  have hu := magnitudeOf_nonneg u
  have hv := magnitudeOf_nonneg v
  cases hsu : signOf u <;> cases hsv : signOf v <;> rw [hsu, hsv] at hvalue <;>
    simp only [signed] at hvalue ⊢
  · have heq := ordinal_eq_of_magnitudeOf_eq hsx hsy hnx hny (neg_injective hvalue)
    omega
  · obtain ⟨hu', hv'⟩ := eq_zero_of_neg_eq hu hv hvalue
    have hordu := ordinal_eq_zero_of_magnitudeOf_eq_zero hsx hnx hu'
    have hordv := ordinal_eq_zero_of_magnitudeOf_eq_zero hsy hny hv'
    omega
  · obtain ⟨hv', hu'⟩ := eq_zero_of_neg_eq hv hu hvalue.symm
    have hordu := ordinal_eq_zero_of_magnitudeOf_eq_zero hsx hnx hu'
    have hordv := ordinal_eq_zero_of_magnitudeOf_eq_zero hsy hny hv'
    omega
  · have heq := ordinal_eq_of_magnitudeOf_eq hsx hsy hnx hny hvalue
    omega

/-- A place of the order belongs to one number. -/
theorem eq_of_rank_eq {x y : Float} (h : rank x = rank y) : x = y := by
  have hbits : x.toModel.toBits = y.toModel.toBits := eq_of_bitsRank_eq h
  obtain ⟨⟨bits, hvalid⟩⟩ := x
  obtain ⟨⟨bits', hvalid'⟩⟩ := y
  obtain rfl : bits = bits' := hbits
  rfl

theorem rank_ne_iff {x y : Float} : rank x ≠ rank y ↔ x ≠ y :=
  not_congr ⟨eq_of_rank_eq, congrArg rank⟩

/-- Two different numbers that are equal in value are the two zeros. -/
theorem eq_zeros_of_beq {x y : Float} (h : (x == y) = true) (hne : x ≠ y) :
    (x = -0.0 ∧ y = 0.0) ∨ (x = 0.0 ∧ y = -0.0) := by
  have hbefore : rank (-0.0) = -1 := by decide +kernel
  have hzero : rank 0.0 = 0 := by decide +kernel
  rcases rank_of_beq h with heq | ⟨hx, hy⟩ | ⟨hx, hy⟩
  · exact absurd (eq_of_rank_eq heq) hne
  · exact .inl ⟨eq_of_rank_eq (hx.trans hbefore.symm), eq_of_rank_eq (hy.trans hzero.symm)⟩
  · exact .inr ⟨eq_of_rank_eq (hx.trans hzero.symm), eq_of_rank_eq (hy.trans hbefore.symm)⟩

/-- No three numbers are equal in value and different. -/
theorem eq_or_eq_or_eq_of_beq {a b c x : Float} (ha : (a == x) = true) (hb : (b == x) = true)
    (hc : (c == x) = true) : a = b ∨ a = c ∨ b = c := by
  have hra := rank_of_beq ha
  have hrb := rank_of_beq hb
  have hrc := rank_of_beq hc
  have hrank : rank a = rank b ∨ rank a = rank c ∨ rank b = rank c := by omega
  exact hrank.imp eq_of_rank_eq (Or.imp eq_of_rank_eq eq_of_rank_eq)

end SwerveLocalization.Binary64
