import Mathlib

/-!
# Real numbers rounded to binary64

A binary64 number keeps 53 binary digits of a real number, fewer below
`2 ^ -1022`, and none beyond `2 ^ 1024`. `nearest` is this rounding as a
function on real numbers, said without bits: it counts in units of the last
place that is kept, takes the nearest whole number of them, an exact half going
to the even one, and calls the result infinite where it is too large. Main
statement: `nearest` never reverses an order. The numbers that binary64 stores
have a sign, a mantissa and an exponent; `dyadic` is what they stand for.
-/

namespace SwerveLocalization.Binary64

/-! ## The nearest integer -/

/-- The nearest integer, an exact half going to the even one. -/
noncomputable def halfEven (x : ℝ) : ℤ :=
  if Int.fract x < 1 / 2 then ⌊x⌋
  else if Int.fract x = 1 / 2 then ⌊x⌋ + ⌊x⌋ % 2
  else ⌊x⌋ + 1

theorem floor_le_halfEven (x : ℝ) : ⌊x⌋ ≤ halfEven x := by
  unfold halfEven
  split_ifs <;> omega

theorem halfEven_le_floor_add_one (x : ℝ) : halfEven x ≤ ⌊x⌋ + 1 := by
  unfold halfEven
  split_ifs <;> omega

@[simp] theorem halfEven_intCast (n : ℤ) : halfEven n = n := by
  simp [halfEven]

theorem halfEven_mono : Monotone halfEven := by
  intro x y hxy
  rcases (Int.floor_mono hxy).lt_or_eq with hlt | heq
  · have hx := halfEven_le_floor_add_one x
    have hy := floor_le_halfEven y
    omega
  · have hfract : Int.fract x ≤ Int.fract y := by
      unfold Int.fract
      rw [heq]
      linarith
    unfold halfEven
    rw [heq]
    split_ifs <;> grind

theorem le_halfEven {n : ℤ} {x : ℝ} (h : (n : ℝ) ≤ x) : n ≤ halfEven x := by
  rw [← halfEven_intCast n]
  exact halfEven_mono h

theorem halfEven_le {n : ℤ} {x : ℝ} (h : x ≤ n) : halfEven x ≤ n := by
  rw [← halfEven_intCast n]
  exact halfEven_mono h

/-! ## Rounding a magnitude -/

/-- The place of the last binary digit that is kept of a positive number. -/
noncomputable def lastPlace (x : ℝ) : ℤ := max (Int.log 2 x - 52) (-1074)

/-- A number counted in units of its last place. -/
noncomputable def inUnits (x : ℝ) : ℝ := x / 2 ^ lastPlace x

/-- A nonnegative number rounded to its last place, however large it is. -/
noncomputable def onGrid (x : ℝ) : ℝ := halfEven (inUnits x) * 2 ^ lastPlace x

theorem lastPlace_mono {x y : ℝ} (hx : 0 < x) (hxy : x ≤ y) : lastPlace x ≤ lastPlace y := by
  have hlog := Int.log_mono_right (b := 2) hx hxy
  unfold lastPlace
  omega

theorem inUnits_lt (x : ℝ) : inUnits x < 2 ^ (53 : ℤ) := by
  unfold inUnits
  rw [div_lt_iff₀ (by positivity), ← zpow_add₀ (by norm_num)]
  calc x < 2 ^ (Int.log 2 x + 1) := Int.lt_zpow_succ_log_self (b := 2) (by norm_num) x
    _ ≤ 2 ^ (53 + lastPlace x) := by
      apply zpow_le_zpow_right₀ (by norm_num)
      unfold lastPlace
      omega

theorem le_inUnits {x : ℝ} (hx : 0 < x) (hplace : -1074 < lastPlace x) :
    2 ^ (52 : ℤ) ≤ inUnits x := by
  unfold inUnits
  rw [le_div_iff₀ (by positivity), ← zpow_add₀ (by norm_num)]
  calc (2 : ℝ) ^ (52 + lastPlace x) ≤ 2 ^ Int.log 2 x := by
        apply zpow_le_zpow_right₀ (by norm_num)
        unfold lastPlace at hplace ⊢
        omega
    _ ≤ x := Int.zpow_log_le_self (b := 2) (by norm_num) hx

/-- Rounding may carry into a 54th digit, but only to the power of two. -/
theorem halfEven_inUnits_le (x : ℝ) : halfEven (inUnits x) ≤ 2 ^ 53 := by
  apply halfEven_le
  exact_mod_cast (inUnits_lt x).le

theorem le_halfEven_inUnits {x : ℝ} (hx : 0 < x) (hplace : -1074 < lastPlace x) :
    2 ^ 52 ≤ halfEven (inUnits x) := by
  apply le_halfEven
  exact_mod_cast le_inUnits hx hplace

theorem halfEven_inUnits_nonneg {x : ℝ} (hx : 0 ≤ x) : 0 ≤ halfEven (inUnits x) := by
  apply le_halfEven
  unfold inUnits
  push_cast
  positivity

theorem onGrid_nonneg {x : ℝ} (hx : 0 ≤ x) : 0 ≤ onGrid x := by
  have h := halfEven_inUnits_nonneg hx
  unfold onGrid
  positivity

@[simp] theorem onGrid_zero : onGrid 0 = 0 := by
  simp [onGrid, inUnits, halfEven]

/-- Numbers of one binade are rounded on one grid. Between two binades lies a
power of two, which is on both grids and separates the results. -/
theorem onGrid_mono {x y : ℝ} (hx : 0 < x) (hxy : x ≤ y) : onGrid x ≤ onGrid y := by
  have hy : 0 < y := lt_of_lt_of_le hx hxy
  rcases (lastPlace_mono hx hxy).lt_or_eq with hlt | heq
  · have hbelow : onGrid x ≤ 2 ^ (53 + lastPlace x) := by
      unfold onGrid
      rw [zpow_add₀ (by norm_num)]
      apply mul_le_mul_of_nonneg_right _ (by positivity)
      exact_mod_cast halfEven_inUnits_le x
    have habove : (2 : ℝ) ^ (52 + lastPlace y) ≤ onGrid y := by
      have hplace : -1074 < lastPlace y := lt_of_le_of_lt (le_max_right _ _) hlt
      unfold onGrid
      rw [zpow_add₀ (by norm_num)]
      apply mul_le_mul_of_nonneg_right _ (by positivity)
      exact_mod_cast le_halfEven_inUnits hy hplace
    -- `53 + lastPlace x` is at most `52 + lastPlace y`: the power of two between them
    calc onGrid x ≤ 2 ^ (53 + lastPlace x) := hbelow
      _ ≤ 2 ^ (52 + lastPlace y) := zpow_le_zpow_right₀ (by norm_num) (by omega)
      _ ≤ onGrid y := habove
  · unfold onGrid inUnits
    rw [heq]
    apply mul_le_mul_of_nonneg_right _ (by positivity)
    exact_mod_cast halfEven_mono (div_le_div_of_nonneg_right hxy (by positivity))

/-- A number, or infinity where it is too large. -/
noncomputable def capped (x : ℝ) : EReal := if 2 ^ 1024 ≤ x then ⊤ else x

theorem capped_mono : Monotone capped := by
  intro x y hxy
  unfold capped
  split_ifs with hx hy
  · exact le_rfl
  · exact absurd (hx.trans hxy) hy
  · exact le_top
  · exact_mod_cast hxy

@[simp] theorem capped_zero : capped 0 = 0 := by
  simp [capped]

/-- A nonnegative number rounded to binary64. -/
noncomputable def nearestMagnitude (x : ℝ) : EReal := capped (onGrid x)

theorem nearestMagnitude_nonneg {x : ℝ} (hx : 0 ≤ x) : 0 ≤ nearestMagnitude x := by
  rw [← capped_zero]
  exact capped_mono (onGrid_nonneg hx)

@[simp] theorem nearestMagnitude_zero : nearestMagnitude 0 = 0 := by
  simp [nearestMagnitude]

theorem nearestMagnitude_mono {x y : ℝ} (hx : 0 ≤ x) (hxy : x ≤ y) :
    nearestMagnitude x ≤ nearestMagnitude y := by
  rcases hx.lt_or_eq with hpos | rfl
  · exact capped_mono (onGrid_mono hpos hxy)
  · rw [nearestMagnitude_zero]
    exact nearestMagnitude_nonneg hxy

/-! ## Rounding a signed number -/

/-- A real number rounded to binary64. -/
noncomputable def nearest (x : ℝ) : EReal :=
  if x < 0 then -nearestMagnitude (-x) else nearestMagnitude x

@[simp] theorem nearest_zero : nearest 0 = 0 := by
  simp [nearest]

theorem nearest_of_nonneg {x : ℝ} (hx : 0 ≤ x) : nearest x = nearestMagnitude x :=
  if_neg hx.not_gt

theorem nearest_neg_of_pos {x : ℝ} (hx : 0 < x) : nearest (-x) = -nearestMagnitude x := by
  rw [nearest, if_pos (neg_lt_zero.mpr hx), neg_neg]

/-- Rounding never reverses an order. -/
theorem nearest_mono : Monotone nearest := by
  intro x y hxy
  unfold nearest
  split_ifs with hx hy hy
  · rw [EReal.neg_le_neg_iff]
    exact nearestMagnitude_mono (by linarith) (by linarith)
  · calc -nearestMagnitude (-x) ≤ 0 := by
          rw [EReal.neg_le, neg_zero]
          exact nearestMagnitude_nonneg (by linarith)
      _ ≤ nearestMagnitude y := nearestMagnitude_nonneg (not_lt.mp hy)
  · exact absurd (lt_of_le_of_lt hxy hy) hx
  · exact nearestMagnitude_mono (not_lt.mp hx) hxy

/-! ## The largest numbers -/

/-- The unit in which the largest numbers are counted. -/
noncomputable def unit : ℝ := 2 ^ (971 : ℤ)

theorem unit_pos : 0 < unit := by
  unfold unit
  positivity

theorem two_pow_eq_unit : (2 : ℝ) ^ 1024 = 2 ^ 53 * unit := by
  rw [unit, ← zpow_natCast, ← zpow_natCast, ← zpow_add₀ (by norm_num)]
  norm_num

/-! ## Numbers with a sign, a mantissa and an exponent -/

open Float.Model.UnpackedFloat

/-- The real number with the given sign, mantissa and exponent. -/
noncomputable def dyadic (s : Sign) (m : ℕ) (e : ℤ) : ℝ := (s.apply m : ℤ) * 2 ^ e

theorem dyadic_positive (m : ℕ) (e : ℤ) : dyadic .positive m e = m * 2 ^ e := by
  simp [dyadic, Sign.apply]

theorem dyadic_negative (m : ℕ) (e : ℤ) : dyadic .negative m e = -(m * 2 ^ e) := by
  simp [dyadic, Sign.apply]

theorem dyadic_pos {m : ℕ} (hm : 0 < m) (e : ℤ) : 0 < dyadic .positive m e := by
  rw [dyadic_positive]
  positivity

theorem dyadic_neg {m : ℕ} (hm : 0 < m) (e : ℤ) : dyadic .negative m e < 0 := by
  rw [dyadic_negative, neg_lt_zero]
  positivity

theorem dyadic_neg_sign (s : Sign) (m : ℕ) (e : ℤ) : dyadic (-s) m e = -dyadic s m e := by
  cases s with
  | negative => exact (dyadic_positive m e).trans (by rw [dyadic_negative, neg_neg])
  | positive => exact (dyadic_negative m e).trans (by rw [dyadic_positive])

end SwerveLocalization.Binary64
