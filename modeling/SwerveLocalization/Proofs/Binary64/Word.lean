import Mathlib
import SwerveLocalization.Binary64.Word
import SwerveLocalization.Proofs.Binary64.Order

/-!
# Words and the numbers they store

A word that is not NaN and the number that it stores determine each other, so words
are computed with and compared as binary64 numbers are. Main statement: no two words
have one place in the total order, and the words that are NaN are those beyond the
two infinities, on either side.
-/

namespace SwerveLocalization.Binary64

open Float.Model Float.Model.UnpackedFloat

/-! ## From bits to numbers and back -/

theorem unpack_pack {u : UnpackedFloat} (hu : Stored u) : (Float.Model.pack u).unpack = u := by
  cases u with
  | infinity s => exact unpack_pack_infinity s
  | notANumber => rfl
  | zero s => cases s <;> rfl
  | finite s m e hm => rw [unpack_pack_finite s hm hu.1, if_pos hu.2]

/-- The number that bits store is unpacked as they are. -/
theorem unpack_ofBits (bits : UInt64) :
    (Float.ofBits bits).toModel.unpack = UnpackedFloat.unpack .binary64 bits.toBitVec :=
  unpack_pack (stored_bits bits.toBitVec)

/-- The bits of a number are lost only where it is NaN. -/
theorem toBits_ofBits {bits : UInt64} (h : (Float.ofBits bits).isNaN = false) :
    (Float.ofBits bits).toBits = bits := by
  have hbits := toNat_toBits h
  have hnan : (UnpackedFloat.unpack .binary64 bits.toBitVec).isNaN = false := by
    rw [← unpack_ofBits]
    exact h
  rw [unpack_ofBits, ← toNat_bits hnan] at hbits
  exact UInt64.toNat_inj.mp hbits

/-- Bits that are NaN have all digits of the exponent and some of the mantissa. -/
theorem isNaN_unpack_iff (b : BitVec 64) :
    (UnpackedFloat.unpack .binary64 b).isNaN = true ↔
      @unpackExponent Format.binary64 b = -1#_ ∧ @unpackMantissa Format.binary64 b ≠ 0#_ := by
  unfold UnpackedFloat.unpack
  dsimp only
  split_ifs with hones hzero hleast hmantissa <;> simp_all [UnpackedFloat.isNaN]

/-- There is one `Float` that is NaN. -/
theorem eq_nan {x : Float} (h : x.isNaN = true) : x = nan := by
  obtain ⟨⟨bits, hvalid⟩⟩ := x
  obtain ⟨hexponent, hmantissa⟩ := (isNaN_unpack_iff bits.toBitVec).mp h
  have hbits : bits = UInt64.ofBitVec (packedNaN .binary64) :=
    UInt64.toBitVec_inj.mp (hvalid.eq_packedNaN hexponent hmantissa)
  subst hbits
  rfl

theorem ofBits_toBits (x : Float) : Float.ofBits x.toBits = x := by
  have hunpack : (Float.ofBits x.toBits).toModel.unpack = x.toModel.unpack := unpack_ofBits x.toBits
  have hnan : (Float.ofBits x.toBits).isNaN = x.isNaN := congrArg UnpackedFloat.isNaN hunpack
  cases hx : x.isNaN with
  | true => exact (eq_nan (hnan.trans hx)).trans (eq_nan hx).symm
  | false => exact eq_of_rank_eq (congrArg bitsRank (toBits_ofBits (hnan.trans hx)))

namespace Word

variable {v w : Word}

@[simp] theorem toFloat_ofFloat (x : Float) : (ofFloat x).toFloat = x := ofBits_toBits x

theorem ofFloat_toFloat (h : w.toFloat.isNaN = false) : ofFloat w.toFloat = w :=
  congrArg mk (toBits_ofBits h)

theorem rank_toFloat (h : w.toFloat.isNaN = false) : rank w.toFloat = bitsRank w.bits :=
  congrArg (fun w : Word => bitsRank w.bits) (ofFloat_toFloat h)

/-! ## Words as scalars -/

noncomputable instance : RealScalar Word where
  value w := Binary64.value w.toFloat
  round := nearest
  round_mono := nearest_mono
  round_zero := nearest_zero
  value_zero := by
    show Binary64.value (ofFloat 0).toFloat = 0
    rw [toFloat_ofFloat]
    exact value_zero
  lt_iff v w := Binary64.lt_iff v.toFloat w.toFloat
  le_iff v w := Binary64.le_iff v.toFloat w.toFloat
  isFinite_iff w := Binary64.isFinite_iff w.toFloat
  isNaN_sub {v w} hv hw := by
    show (ofFloat (v.toFloat - w.toFloat)).toFloat.isNaN = false
    rw [toFloat_ofFloat]
    exact (denotes_sub hv hw).1
  value_sub {v w} hv hw := by
    show Binary64.value (ofFloat (v.toFloat - w.toFloat)).toFloat = _
    rw [toFloat_ofFloat]
    exact (denotes_sub hv hw).2

instance : GradualScalar Word where
  beq_iff v w := beq_iff_le_and_le v.toFloat w.toFloat
  sub_pos {v w} hv hw h := by
    show (ofFloat 0).toFloat < (ofFloat (w.toFloat - v.toFloat)).toFloat
    rw [toFloat_ofFloat, toFloat_ofFloat]
    exact GradualScalar.sub_pos (α := Float) hv hw h

theorem totalLe_iff : totalLe v w = true ↔ bitsRank v.bits ≤ bitsRank w.bits := by
  simp [totalLe]

instance : OrderedScalar Word where
  totalLe_trans u v w huv hvw := totalLe_iff.mpr ((totalLe_iff.mp huv).trans (totalLe_iff.mp hvw))
  totalLe_total v w := by
    rw [Bool.or_eq_true]
    exact (le_total _ _).imp totalLe_iff.mpr totalLe_iff.mpr
  le_of_totalLe {v w} hv hw h := by
    refine Binary64.le_of_totalLe (x := v.toFloat) (y := w.toFloat) hv hw ?_
    rw [Binary64.totalLe_iff, rank_toFloat hv, rank_toFloat hw]
    exact totalLe_iff.mp h

/-! ## The places of words -/

/-- The bits of a NaN, without the sign, come after those of infinity. -/
theorem isNaN_iff : w.toFloat.isNaN = true ↔ 2047 * 2 ^ 52 < w.bits.toNat % 2 ^ 63 := by
  have hbits : w.toFloat.isNaN = (UnpackedFloat.unpack .binary64 w.bits.toBitVec).isNaN :=
    congrArg UnpackedFloat.isNaN (unpack_ofBits w.bits)
  have hexponent := toNat_unpackExponent w.bits.toBitVec
  have hmantissa := toNat_unpackMantissa w.bits.toBitVec
  have hsplit : w.bits.toBitVec.toNat = w.bits.toNat := rfl
  rw [hbits, isNaN_unpack_iff, Ne, ← BitVec.toNat_inj, ← BitVec.toNat_inj, hexponent, hmantissa,
    hsplit]
  show w.bits.toNat / 2 ^ 52 % 2 ^ 11 = 2047 ∧ ¬ w.bits.toNat % 2 ^ 52 = 0 ↔ _
  omega

/-- No two words have one place. -/
theorem eq_of_totalLe (hvw : totalLe v w = true) (hwv : totalLe w v = true) : v = w :=
  congrArg mk (eq_of_bitsRank_eq ((totalLe_iff.mp hvw).antisymm (totalLe_iff.mp hwv)))

/-- The words that are NaN are those before negative infinity and those after infinity. -/
theorem isNaN_iff_beyond (w : Word) :
    Scalar.isNaN w = true ↔
      totalLe (-Scalar.infinity) w = false ∨ totalLe w Scalar.infinity = false := by
  have hlow : bitsRank (-Scalar.infinity : Word).bits = -1 - 2047 * 2 ^ 52 := by decide +kernel
  have hhigh : bitsRank (Scalar.infinity : Word).bits = 2047 * 2 ^ 52 := by decide +kernel
  have hbits := w.bits.toNat_lt
  show w.toFloat.isNaN = true ↔ _
  rw [isNaN_iff, ← Bool.not_eq_true, ← Bool.not_eq_true, totalLe_iff, totalLe_iff, hlow, hhigh]
  unfold bitsRank signBit
  split_ifs <;> omega

end Word

end SwerveLocalization.Binary64
