import Mathlib
import SwerveLocalization.Proofs.Binary64.Magnitude

/-!
# Order under rounded operations

Rounding never reverses an order, so numbers that are not negative stay in order when
they are multiplied by one factor or divided by positive numbers, also where a result
overflows or vanishes. A factor zero is the exception: it makes an infinity NaN. But then
it makes a zero of everything else, so of a NaN and what it is compared with there is
nothing left that counts.
-/

namespace SwerveLocalization.Binary64

open Float.Model Float.Model.UnpackedFloat

variable {x y u v c d least : Float} {f g : ℝ → ℝ} {n : ℕ}

/-! ## Operations on numbers that are not negative -/

theorem zero_le_iff : 0 ≤ x ↔ x.isNaN = false ∧ 0 ≤ value x := by
  rw [le_iff, value_zero]
  exact ⟨fun h => h.2, fun h => ⟨rfl, h⟩⟩

theorem zero_le_iff_real (hx : x.isFinite = true) : 0 ≤ x ↔ 0 ≤ real x := by
  rw [real_le_real rfl hx, real_zero]

theorem unpack_of_infinite_of_nonneg (hx : x.isFinite = false) (hnonneg : 0 ≤ x) :
    x.toModel.unpack = .infinity .positive := by
  obtain ⟨hnan, hvalue⟩ := zero_le_iff.mp hnonneg
  obtain ⟨s, hs⟩ := unpack_of_infinite hx hnan
  cases s with
  | positive => exact hs
  | negative =>
    rw [value, hs] at hvalue
    exact absurd hvalue (not_le.mpr EReal.bot_lt_zero)

theorem unpack_of_pos (hc : c.isFinite = true) (hpos : 0 < real c) :
    ∃ m e hm, c.toModel.unpack = .finite .positive m e hm := by
  rcases unpack_cases hc with ⟨s, -, hzero⟩ | ⟨s, m, e, hm, hu, -, -, hreal⟩
  · exact absurd hzero hpos.ne'
  · cases s with
    | positive => exact ⟨m, e, hm, hu⟩
    | negative => exact absurd (hreal ▸ hpos) (dyadic_neg hm e).not_gt

theorem denotes_infinity : Denotes (Float.Model.pack (.infinity .positive)).unpack ⊤ := by
  rw [unpack_pack_infinity]
  exact ⟨rfl, rfl⟩

theorem nearest_nonneg {r : ℝ} (h : 0 ≤ r) : 0 ≤ nearest r := by
  rw [nearest_of_nonneg h]
  exact nearestMagnitude_nonneg h

theorem le_of_denotes {p q : EReal} (hu : Denotes u.toModel.unpack p)
    (hv : Denotes v.toModel.unpack q) (h : p ≤ q) : u ≤ v := by
  refine (le_iff u v).mpr ⟨hu.1, hv.1, ?_⟩
  rw [value, value, hu.2, hv.2]
  exact h

theorem zero_le_of_denotes {p : EReal} (hu : Denotes u.toModel.unpack p) (h : 0 ≤ p) : 0 ≤ u := by
  refine zero_le_iff.mpr ⟨hu.1, ?_⟩
  rw [value, hu.2]
  exact h

/-- A result that is what `f` makes of a number, rounded, and of infinity infinity. -/
structure Rounds (f : ℝ → ℝ) (x u : Float) : Prop where
  finite : x.isFinite = true → Denotes u.toModel.unpack (nearest (f (real x)))
  infinite : x.isFinite = false → Denotes u.toModel.unpack ⊤

theorem rounds_mul (hx : 0 ≤ x) (hc : c.isFinite = true) (hpos : 0 < real c) :
    Rounds (· * real c) x (x * c) := by
  constructor
  · intro hfinite
    exact denotes_mul hfinite hc
  · intro hinfinite
    obtain ⟨m, e, hm, hv⟩ := unpack_of_pos hc hpos
    show Denotes (Float.Model.pack (UnpackedFloat.mul .binary64 x.toModel.unpack
      c.toModel.unpack)).unpack _
    rw [unpack_of_infinite_of_nonneg hinfinite hx, hv]
    exact denotes_infinity

theorem rounds_div (hx : 0 ≤ x) (hc : c.isFinite = true) (hpos : 0 < real c) :
    Rounds (· / real c) x (x / c) := by
  constructor
  · intro hfinite
    exact denotes_div hfinite hc hpos.ne'
  · intro hinfinite
    obtain ⟨m, e, hm, hv⟩ := unpack_of_pos hc hpos
    show Denotes (Float.Model.pack (UnpackedFloat.div .binary64 x.toModel.unpack
      c.toModel.unpack)).unpack _
    rw [unpack_of_infinite_of_nonneg hinfinite hx, hv]
    exact denotes_infinity

/-- Numbers that are not negative and in order. -/
def Ascending (x y : Float) : Prop := 0 ≤ x ∧ x ≤ y

theorem Rounds.zero_le (hu : Rounds f x u) (hx : 0 ≤ x) (hf : ∀ r, 0 ≤ r → 0 ≤ f r) : 0 ≤ u := by
  cases hfinite : x.isFinite with
  | true =>
    have hnonneg := hf _ ((zero_le_iff_real hfinite).mp hx)
    exact zero_le_of_denotes (hu.finite hfinite) (nearest_nonneg hnonneg)
  | false => exact zero_le_of_denotes (hu.infinite hfinite) le_top

theorem Ascending.isFinite (h : Ascending x y) (hy : y.isFinite = true) : x.isFinite = true := by
  obtain ⟨hnan, hzero⟩ := zero_le_iff.mp h.1
  obtain ⟨-, htop, -⟩ := (isFinite_iff y).mp hy
  have hle := ((le_iff x y).mp h.2).2.2
  exact (isFinite_iff x).mpr
    ⟨hnan, (hle.trans_lt htop.lt_top).ne, (EReal.bot_lt_zero.trans_le hzero).ne'⟩

/-- Functions that keep an order keep it when their results are rounded. -/
theorem Ascending.rounds (h : Ascending x y) (hu : Rounds f x u) (hv : Rounds g y v)
    (hfg : ∀ r s, 0 ≤ r → r ≤ s → 0 ≤ f r ∧ f r ≤ g s) : Ascending u v := by
  have hnonneg : 0 ≤ u := hu.zero_le h.1 fun r hr => (hfg r r hr le_rfl).1
  refine ⟨hnonneg, ?_⟩
  cases hy : y.isFinite with
  | true =>
    have hx : x.isFinite = true := h.isFinite hy
    obtain ⟨-, hle⟩ :=
      hfg _ _ ((zero_le_iff_real hx).mp h.1) ((real_le_real hx hy).mp h.2)
    exact le_of_denotes (hu.finite hx) (hv.finite hy) (nearest_mono hle)
  | false =>
    obtain ⟨hnan, htop⟩ := hv.infinite hy
    refine (le_iff u v).mpr ⟨(zero_le_iff.mp hnonneg).1, hnan, ?_⟩
    rw [value, value, htop]
    exact le_top

theorem Ascending.mul (h : Ascending x y) (hc : c.isFinite = true) (hpos : 0 < real c) :
    Ascending (x * c) (y * c) := by
  have hy : 0 ≤ y := RealScalar.le_trans h.1 h.2
  refine h.rounds (rounds_mul h.1 hc hpos) (rounds_mul hy hc hpos) fun r s hr hrs => ?_
  exact ⟨mul_nonneg hr hpos.le, mul_le_mul_of_nonneg_right hrs hpos.le⟩

/-- A larger divisor makes a quotient smaller. -/
theorem Ascending.div (h : Ascending x y) (hc : c.isFinite = true) (hd : d.isFinite = true)
    (hpos : 0 < real d) (hle : real d ≤ real c) : Ascending (x / c) (y / d) := by
  have hy : 0 ≤ y := RealScalar.le_trans h.1 h.2
  have hc' := hpos.trans_le hle
  refine h.rounds (rounds_div h.1 hc hc') (rounds_div hy hd hpos) fun r s hr hrs => ?_
  exact ⟨div_nonneg hr hc'.le, div_le_div₀ (hr.trans hrs) hrs hpos hle⟩

theorem ascending_square (hx : x.isFinite = true) (hy : y.isFinite = true)
    (h : |real x| ≤ |real y|) : Ascending (x * x) (y * y) := by
  have hsquares := nearest_mono (abs_le_iff_mul_self_le.mp h)
  refine ⟨?_, le_of_denotes (denotes_mul hx hx) (denotes_mul hy hy) hsquares⟩
  exact zero_le_of_denotes (denotes_mul hx hx) (nearest_nonneg (mul_self_nonneg _))

/-! ## Factors that may be zero -/

/-- A finite number that is not negative. -/
def IsFactor (c : Float) : Prop := c.isFinite = true ∧ 0 ≤ c

/-- A zero or NaN. -/
def Vanished (x : Float) : Prop := IsZero x ∨ x.isNaN = true

/-- In order, or with nothing left that counts. -/
def InOrder (x y : Float) : Prop := Ascending x y ∨ Vanished x ∧ Vanished y

theorem Vanished.mul (hx : Vanished x) (hc : c.isFinite = true) : Vanished (x * c) := by
  rcases hx with hzero | hnan
  · exact .inl (hzero.mul_right hc)
  · exact .inr (isNaN_mul (.inl hnan))

theorem vanished_mul_zero (hc : IsZero c) (x : Float) : Vanished (x * c) := by
  by_cases hx : x.isFinite = true
  · exact .inl (hc.mul_left hx)
  · exact .inr (isNaN_mul_of_zero ((Bool.not_eq_true _).mp hx) hc.1 hc.2)

/-- Multiplied by one factor, results stay in order. -/
theorem InOrder.mul (h : InOrder x y) (hc : IsFactor c) : InOrder (x * c) (y * c) := by
  obtain ⟨hfinite, hnonneg⟩ := hc
  rcases h with hascending | ⟨hx, hy⟩
  · rcases ((zero_le_iff_real hfinite).mp hnonneg).eq_or_lt' with hzero | hpos
    · exact .inr ⟨vanished_mul_zero ⟨hfinite, hzero⟩ x, vanished_mul_zero ⟨hfinite, hzero⟩ y⟩
    · exact .inl (hascending.mul hfinite hpos)
  · exact .inr ⟨hx.mul hfinite, hy.mul hfinite⟩

theorem mul_comm (x y : Float) : x * y = y * x := by
  have hsign : ∀ s t : Sign, s * t = t * s := by
    intro s t
    cases s <;> cases t <;> rfl
  have hcomm : UnpackedFloat.mul .binary64 x.toModel.unpack y.toModel.unpack
      = UnpackedFloat.mul .binary64 y.toModel.unpack x.toModel.unpack := by
    generalize x.toModel.unpack = u, y.toModel.unpack = v
    cases u <;> cases v <;> simp [UnpackedFloat.mul, hsign, Nat.mul_comm, Int.add_comm]
  exact congrArg (fun u => Float.ofModel (Float.Model.pack u)) hcomm

theorem InOrder.mul_left (h : InOrder x y) (hc : IsFactor c) : InOrder (c * x) (c * y) := by
  rw [mul_comm c x, mul_comm c y]
  exact h.mul hc

theorem Vanished.larger (hx : Vanished x) (hleast : 0 < least) : Scalar.larger x least = least := by
  unfold Scalar.larger
  rcases hx with ⟨hfinite, hzero⟩ | hnan
  · have hlt : x < least := by
      obtain ⟨-, hnan, hvalue⟩ := (lt_iff _ _).mp hleast
      refine (lt_iff _ _).mpr ⟨((isFinite_iff x).mp hfinite).1, hnan, ?_⟩
      rw [value_eq_real hfinite, hzero, EReal.coe_zero, ← value_zero]
      exact hvalue
    rw [if_pos hlt]
  · have hnan' : Scalar.isNaN x = true := hnan
    rw [if_pos hnan', ite_self]

/-- What is left once results in order are raised to a least number is in order. -/
theorem InOrder.larger (h : InOrder x y) (hfinite : least.isFinite = true) (hleast : 0 < least) :
    Scalar.larger x least ≤ Scalar.larger y least := by
  rcases h with ⟨-, hle⟩ | ⟨hx, hy⟩
  · exact RealScalar.larger_mono hle hfinite
  · rw [hx.larger hleast, hy.larger hleast]
    exact RealScalar.le_refl hfinite

/-! ## Infinity -/

theorem infinity_le_iff : Scalar.infinity ≤ x ↔ x.isNaN = false ∧ value x = ⊤ := by
  obtain ⟨hnan, hvalue⟩ : Denotes (Scalar.infinity : Float).toModel.unpack ⊤ := denotes_infinity
  rw [le_iff, value, hvalue, top_le_iff]
  exact and_iff_right hnan

theorem infinity_le_iff_of_nonneg (hx : 0 ≤ x) : Scalar.infinity ≤ x ↔ x.isFinite = false := by
  obtain ⟨hnan, hvalue⟩ := zero_le_iff.mp hx
  have hbot : value x ≠ ⊥ := (EReal.bot_lt_zero.trans_le hvalue).ne'
  rw [infinity_le_iff, ← Bool.not_eq_true x.isFinite, isFinite_iff]
  simp only [hnan, hbot, true_and, ne_eq, not_false_eq_true, and_true, not_not]

theorem zero_le_of_infinity_le (hx : Scalar.infinity ≤ x) : 0 ≤ x := by
  obtain ⟨hnan, hvalue⟩ := infinity_le_iff.mp hx
  exact zero_le_iff.mpr ⟨hnan, hvalue ▸ le_top⟩

/-- Raised to zero, a number is not negative, and infinite only if it was. -/
theorem larger_zero_cases (x : Float) : 0 ≤ Scalar.larger x 0 ∧
    (Scalar.infinity ≤ Scalar.larger x 0 ↔ Scalar.infinity ≤ x) := by
  have hzero : (0 : Float) ≤ 0 := RealScalar.le_refl rfl
  have hbelow : ¬ Scalar.infinity ≤ (0 : Float) := by
    rw [infinity_le_iff_of_nonneg hzero]
    decide +kernel
  by_cases hx : 0 ≤ x
  · rw [RealScalar.larger_eq_left hx]
    exact ⟨hx, Iff.rfl⟩
  · have hlarger : Scalar.larger x 0 = 0 := by
      unfold Scalar.larger
      split_ifs with hneg hnan
      · rfl
      · rfl
      · exact absurd ((RealScalar.not_lt ((Bool.not_eq_true _).mp hnan) rfl).mp hneg) hx
    rw [hlarger]
    exact ⟨hzero, iff_of_false hbelow (mt zero_le_of_infinity_le hx)⟩

/-- The opposite of infinity. -/
theorem unpack_neg_of_infinity_le (hx : Scalar.infinity ≤ x) :
    (-x).toModel.unpack = .infinity .negative := by
  have hnonneg := zero_le_of_infinity_le hx
  have hinfinite := (infinity_le_iff_of_nonneg hnonneg).mp hx
  show (Float.Model.pack x.toModel.unpack.neg).unpack = _
  rw [unpack_of_infinite_of_nonneg hinfinite hnonneg]
  exact unpack_pack_infinity .negative

theorem isNaN_neg_div (hx : Scalar.infinity ≤ x) (hc : Scalar.infinity ≤ c) :
    (-x / c).isNaN = true := by
  apply isNaN_div_of_infinite
  · exact congrArg UnpackedFloat.isFinite (unpack_neg_of_infinity_le hx)
  · exact (infinity_le_iff_of_nonneg (zero_le_of_infinity_le hc)).mp hc

theorem denotes_neg_div_of_infinity_le (hx : Scalar.infinity ≤ x) (hc : c.isFinite = true)
    (hpos : 0 < real c) : Denotes (-x / c).toModel.unpack ⊥ := by
  obtain ⟨m, e, hm, hv⟩ := unpack_of_pos hc hpos
  show Denotes (Float.Model.pack (UnpackedFloat.div .binary64 (-x).toModel.unpack
    c.toModel.unpack)).unpack ⊥
  rw [unpack_neg_of_infinity_le hx, hv]
  show Denotes (Float.Model.pack (.infinity .negative)).unpack ⊥
  rw [unpack_pack_infinity]
  exact ⟨rfl, rfl⟩

/-- Unless both are infinite, the opposite of a number that is not negative may be divided by a
positive one. -/
theorem neg_div_nonpos (hx : 0 ≤ x) (hc : 0 < c)
    (h : ¬ (Scalar.infinity ≤ c ∧ Scalar.infinity ≤ x)) : -x / c ≤ 0 := by
  have hzero : Denotes (0 : Float).toModel.unpack 0 := denotes_zero .positive
  have hnonneg : 0 ≤ c := RealScalar.le_of_lt hc
  cases hcfinite : c.isFinite with
  | true =>
    have hpos : 0 < real c := by
      have hreal := (real_lt_real rfl hcfinite).mp hc
      rwa [real_zero] at hreal
    cases hxfinite : x.isFinite with
    | true =>
      obtain ⟨hneg, hreal⟩ := real_neg hxfinite
      have hquotient : real (-x) / real c ≤ 0 := by
        rw [hreal]
        have hnumber := (zero_le_iff_real hxfinite).mp hx
        exact div_nonpos_of_nonpos_of_nonneg (neg_nonpos.mpr hnumber) hpos.le
      refine le_of_denotes (denotes_div hneg hcfinite hpos.ne') hzero ?_
      rw [← nearest_zero]
      exact nearest_mono hquotient
    | false =>
      have hinfinite := (infinity_le_iff_of_nonneg hx).mpr hxfinite
      exact le_of_denotes (denotes_neg_div_of_infinity_le hinfinite hcfinite hpos) hzero bot_le
  | false =>
    -- a finite part of an infinity is zero, of either sign
    have hxfinite : x.isFinite = true := by
      rw [infinity_le_iff_of_nonneg hnonneg, infinity_le_iff_of_nonneg hx] at h
      simpa [hcfinite] using h
    obtain ⟨hneg, -⟩ := real_neg hxfinite
    exact le_of_denotes (denotes_div_infinite hneg hcfinite (zero_le_iff.mp hnonneg).1) hzero le_rfl

/-! ## Counts and magnitudes -/

/-- A count that is not too large is a number. -/
theorem real_ofNat (hn : n < 2 ^ 53) :
    (Float.ofNat n).isFinite = true ∧ real (Float.ofNat n) = n := by
  have hform : Float.ofNat n = n.toUInt64.toFloat * 1 := by
    show Float.ofScientific n false 0 = _
    rw [Float.ofScientific, dif_pos ⟨hn, by decide⟩]
    rfl
  have hword : n.toUInt64.toNat = n := by
    rw [Nat.toUInt64_eq, UInt64.toNat_ofNat_of_lt' (hn.trans (by norm_num))]
  have hexact : nearest (n : ℝ) = ((n : ℝ) : EReal) := by
    have h := nearestMagnitude_eq (m := n) (e := 0) hn (by norm_num) (by norm_num)
    rw [zpow_zero, mul_one] at h
    rw [nearest_of_nonneg (Nat.cast_nonneg n), h]
  have hcast : Denotes n.toUInt64.toFloat.toModel.unpack (nearest (n : ℝ)) := by
    have h := denotes_pack_normalize (n.toUInt64.toNat : ℤ) 0
    rw [zpow_zero, mul_one, Int.cast_natCast, congrArg (Nat.cast : ℕ → ℝ) hword] at h
    exact h
  rw [hexact] at hcast
  obtain ⟨hfinite, hreal⟩ := isFinite_of_denotes hcast
  have hproduct := denotes_mul hfinite (y := 1) rfl
  rw [hreal, real_one, mul_one, hexact, ← hform] at hproduct
  exact isFinite_of_denotes hproduct

theorem real_magnitude (hx : x.isFinite = true) :
    (Scalar.magnitude x).isFinite = true ∧ real (Scalar.magnitude x) = |real x| := by
  unfold Scalar.magnitude
  by_cases hneg : x < 0
  · have hneg' := (real_lt_real hx rfl).mp hneg
    rw [real_zero] at hneg'
    rw [if_pos hneg, abs_of_neg hneg']
    exact real_neg hx
  · have hnonneg : 0 ≤ real x := by
      rw [real_lt_real hx rfl, real_zero] at hneg
      exact not_lt.mp hneg
    rw [if_neg hneg, abs_of_nonneg hnonneg]
    exact ⟨hx, rfl⟩

end SwerveLocalization.Binary64
