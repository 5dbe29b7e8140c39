import Mathlib
import SwerveLocalization.Proofs.Scalar

/-!
# Exact numbers

A robot that computes without rounding. Its numbers are the real numbers, the
two infinities and NaN, and its operations are those of floating-point
arithmetic with the rounding left out. There is one zero only, which counts as
positive where its sign would matter.
-/

namespace SwerveLocalization

/-- A real number, an infinity or no number at all. -/
inductive Exact
  | real (x : ℝ)
  | posInf
  | negInf
  | nan

namespace Exact

/-- The infinity of a sign. There is none without a sign. -/
def infinite : SignType → Exact
  | .pos => posInf
  | .neg => negInf
  | .zero => nan

/-- The sign of a number. -/
noncomputable def sign : Exact → SignType
  | real x => SignType.sign x
  | posInf => 1
  | negInf => -1
  | nan => 0

/-- The extended real number that an exact number is. NaN is none; it is given
the value zero. -/
noncomputable def value : Exact → EReal
  | real x => x
  | posInf => ⊤
  | negInf => ⊥
  | nan => 0

/-- The real number that an exact number is. All others are given the value zero. -/
def toReal : Exact → ℝ
  | real x => x
  | _ => 0

/-- Recognises NaN. -/
def isNaN : Exact → Bool
  | nan => true
  | _ => false

/-- Recognises the real numbers. -/
def isFinite : Exact → Bool
  | real _ => true
  | _ => false

/-! ## Operations -/

/-- The opposite number. -/
def neg : Exact → Exact
  | real x => real (-x)
  | posInf => negInf
  | negInf => posInf
  | nan => nan

/-- The sum of two numbers. -/
def add : Exact → Exact → Exact
  | real x, real y => real (x + y)
  | real _, b => b
  | a, real _ => a
  | posInf, posInf => posInf
  | negInf, negInf => negInf
  | _, _ => nan

/-- The product of two numbers. -/
noncomputable def mul : Exact → Exact → Exact
  | real x, real y => real (x * y)
  | a, b => if a.isNaN || b.isNaN then nan else infinite (a.sign * b.sign)

/-- The quotient of two numbers. -/
noncomputable def div : Exact → Exact → Exact
  | real x, real y => if y = 0 then infinite (SignType.sign x) else real (x / y)
  | real _, b => if b.isNaN then nan else real 0
  | a, real y => infinite (a.sign * if y < 0 then -1 else 1)
  | _, _ => nan

/-- The nearest integer on the way to zero. -/
noncomputable def towardZero (x : ℝ) : ℤ := if 0 ≤ x then ⌊x⌋ else ⌈x⌉

/-- The remainder of a division whose quotient is cut off toward zero. -/
noncomputable def mod : Exact → Exact → Exact
  | real x, real y => if y = 0 then nan else real (x - y * towardZero (x / y))
  | real x, b => if b.isNaN then nan else real x
  | _, _ => nan

/-- Square root. -/
noncomputable def sqrt : Exact → Exact
  | real x => if 0 ≤ x then real √x else nan
  | posInf => posInf
  | _ => nan

/-- A function on real numbers that has no value at an infinity. -/
def lift (f : ℝ → ℝ) : Exact → Exact
  | real x => real (f x)
  | _ => nan

/-- The angle of the vector `(x, y)`. Among infinite components a finite one
counts as zero. -/
noncomputable def atan2 : Exact → Exact → Exact
  | real y, real x => real (Complex.arg ⟨x, y⟩)
  | real y, negInf => real (if y < 0 then -Real.pi else Real.pi)
  | real _, posInf => real 0
  | y, real _ => if y.isNaN then nan else real (Complex.arg ⟨0, (y.sign : ℤ)⟩)
  | y, x => if y.isNaN || x.isNaN then nan else real (Complex.arg ⟨(x.sign : ℤ), (y.sign : ℤ)⟩)

/-- Exponential. -/
noncomputable def exp : Exact → Exact
  | real x => real (Real.exp x)
  | posInf => posInf
  | negInf => real 0
  | nan => nan

/-- The place of a number in the total order, where NaN comes last. -/
noncomputable def rank : Exact → WithTop EReal
  | nan => ⊤
  | a => a.value

open Classical in
noncomputable instance : Scalar Exact where
  zero := real 0
  one := real 1
  neg := neg
  add := add
  sub a b := add a (neg b)
  mul := mul
  div := div
  mod := mod
  lt a b := a.isNaN = false ∧ b.isNaN = false ∧ a.value < b.value
  le a b := a.isNaN = false ∧ b.isNaN = false ∧ a.value ≤ b.value
  beq a b := !a.isNaN && decide (a = b)
  ofScientific m s e := real (OfScientific.ofScientific m s e)
  decidableLT _ _ := inferInstance
  decidableLE _ _ := inferInstance
  ofNat n := real n
  isNaN := isNaN
  isFinite := isFinite
  totalLe a b := decide (rank a ≤ rank b)
  sqrt := sqrt
  sin := lift Real.sin
  cos := lift Real.cos
  atan2 := atan2
  exp := exp
  pi := real Real.pi
  infinity := posInf

noncomputable instance : RealScalar Exact where
  value := value
  round x := x
  round_mono := EReal.coe_strictMono.monotone
  round_zero := rfl
  value_zero := rfl
  lt_iff _ _ := Iff.rfl
  le_iff _ _ := Iff.rfl
  isFinite_iff a := by cases a <;> simp [Scalar.isFinite, Scalar.isNaN, isFinite, isNaN, value]
  isNaN_sub {a b} ha hb := by
    cases a <;> cases b <;> first | rfl | contradiction
  value_sub {a b} ha hb := by
    cases a <;> cases b <;> first | contradiction | rfl

theorem rank_of_isNaN_eq_false {a : Exact} (h : a.isNaN = false) : a.rank = a.value := by
  cases a <;> first | rfl | contradiction

instance : OrderedScalar Exact where
  totalLe_trans a b c hab hbc := by
    simp only [Scalar.totalLe, decide_eq_true_eq] at *
    exact hab.trans hbc
  totalLe_total a b := by
    simp only [Scalar.totalLe, Bool.or_eq_true, decide_eq_true_eq]
    exact le_total _ _
  le_of_totalLe {a b} ha hb h := by
    simp only [Scalar.totalLe, decide_eq_true_eq] at h
    rw [rank_of_isNaN_eq_false ha, rank_of_isNaN_eq_false hb, WithTop.coe_le_coe] at h
    exact ⟨ha, hb, h⟩

/-! ## Real numbers among the exact numbers -/

variable (x y : ℝ) (a : Exact)

@[simp] theorem isNaN_real : Scalar.isNaN (real x) = false := rfl

@[simp] theorem isFinite_real : Scalar.isFinite (real x) = true := rfl

@[simp] theorem real_add_real : real x + real y = real (x + y) := rfl

@[simp] theorem real_sub_real : real x - real y = real (x - y) := rfl

@[simp] theorem real_mul_real : real x * real y = real (x * y) := rfl

@[simp] theorem neg_real : -real x = real (-x) := rfl

@[simp] theorem one_eq : (1 : Exact) = real 1 := rfl

@[simp] theorem zero_eq : (0 : Exact) = real 0 := rfl

@[simp] theorem pi_eq : (Scalar.pi : Exact) = real Real.pi := rfl

@[simp] theorem real_lt_real : real x < real y ↔ x < y :=
  ⟨fun h => EReal.coe_lt_coe_iff.mp h.2.2, fun h => ⟨rfl, rfl, EReal.coe_lt_coe_iff.mpr h⟩⟩

@[simp] theorem real_le_real : real x ≤ real y ↔ x ≤ y :=
  ⟨fun h => EReal.coe_le_coe_iff.mp h.2.2, fun h => ⟨rfl, rfl, EReal.coe_le_coe_iff.mpr h⟩⟩

@[simp] theorem real_lt_posInf : real x < posInf := ⟨rfl, rfl, EReal.coe_lt_top x⟩

open Classical in
@[simp] theorem real_beq_real : (real x == real y) = true ↔ x = y := by
  show (!isNaN (real x) && decide (real x = real y)) = true ↔ x = y
  simp [isNaN]

@[simp] theorem larger_real : Scalar.larger (real x) (real y) = real (max x y) := by
  rw [Scalar.larger]
  by_cases h : x < y
  · rw [if_pos ((real_lt_real _ _).mpr h), max_eq_right h.le]
  · rw [if_neg (mt (real_lt_real _ _).mp h), max_eq_left (not_lt.mp h)]
    rfl

@[simp] theorem magnitude_real : Scalar.magnitude (real x) = real |x| := by
  rw [Scalar.magnitude, zero_eq]
  by_cases h : x < 0
  · rw [if_pos ((real_lt_real _ _).mpr h), abs_of_neg h, neg_real]
  · rw [if_neg (mt (real_lt_real _ _).mp h), abs_of_nonneg (not_lt.mp h)]

theorem real_div_real (hy : y ≠ 0) : real x / real y = real (x / y) := if_neg hy

theorem real_mod_real (hy : y ≠ 0) :
    real x % real y = real (x - y * towardZero (x / y)) := if_neg hy

variable {a}

theorem isFinite_iff_exists : Scalar.isFinite a = true ↔ ∃ x, a = real x := by
  cases a with
  | real x => exact ⟨fun _ => ⟨x, rfl⟩, fun _ => rfl⟩
  | posInf => simp [Scalar.isFinite, isFinite]
  | negInf => simp [Scalar.isFinite, isFinite]
  | nan => simp [Scalar.isFinite, isFinite]

theorem value_inj {a b : Exact} (ha : a.isNaN = false) (hb : b.isNaN = false)
    (h : a.value = b.value) : a = b := by
  cases a <;> cases b <;> simp_all [value, isNaN]

open Classical in
noncomputable instance : GradualScalar Exact where
  beq_iff a b := by
    show (!a.isNaN && decide (a = b)) = true ↔ _
    constructor
    · intro h
      simp only [Bool.and_eq_true, Bool.not_eq_true', decide_eq_true_eq] at h
      obtain ⟨ha, rfl⟩ := h
      exact ⟨⟨ha, ha, le_rfl⟩, ⟨ha, ha, le_rfl⟩⟩
    · rintro ⟨⟨ha, hb, hle⟩, -, -, hge⟩
      obtain rfl := value_inj ha hb (le_antisymm hle hge)
      simp [ha]
  sub_pos {a b} ha hb h := by
    obtain ⟨x, rfl⟩ := isFinite_iff_exists.mp ha
    obtain ⟨y, rfl⟩ := isFinite_iff_exists.mp hb
    rw [real_lt_real] at h
    rw [zero_eq, real_sub_real, real_lt_real]
    linarith

theorem real_toReal (h : Scalar.isFinite a = true) : real (toReal a) = a := by
  obtain ⟨x, rfl⟩ := isFinite_iff_exists.mp h
  rfl

@[simp] theorem toReal_real : toReal (real x) = x := rfl

/-- An infinity swallows any real number. -/
theorem add_real_of_not_finite (h : Scalar.isFinite a = false) : a + real x = a := by
  cases a with
  | real y => contradiction
  | posInf => rfl
  | negInf => rfl
  | nan => rfl

theorem real_add_of_not_finite (h : Scalar.isFinite a = false) : real x + a = a := by
  cases a with
  | real y => contradiction
  | posInf => rfl
  | negInf => rfl
  | nan => rfl

/-! ## What is not a real number stays so -/

variable {b : Exact}

theorem not_finite_add (h : Scalar.isFinite a = false ∨ Scalar.isFinite b = false) :
    Scalar.isFinite (a + b) = false := by
  cases a <;> cases b <;> first | rfl | simp at h

theorem not_finite_sub (h : Scalar.isFinite a = false ∨ Scalar.isFinite b = false) :
    Scalar.isFinite (a - b) = false := by
  cases a <;> cases b <;> first | rfl | simp at h

theorem not_finite_infinite (s : SignType) : Scalar.isFinite (infinite s) = false := by
  cases s <;> rfl

theorem not_finite_mul (h : Scalar.isFinite a = false ∨ Scalar.isFinite b = false) :
    Scalar.isFinite (a * b) = false := by
  have hmul : a * b = if a.isNaN || b.isNaN then nan else infinite (a.sign * b.sign) := by
    cases a <;> cases b <;> first | rfl | simp at h
  rw [hmul]
  split_ifs
  · rfl
  · exact not_finite_infinite _

end Exact

end SwerveLocalization
