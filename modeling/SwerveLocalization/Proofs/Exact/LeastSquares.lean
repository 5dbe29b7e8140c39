import Mathlib
import SwerveLocalization.Chassis.Kinematics
import SwerveLocalization.Proofs.Exact.ComplexPlane

/-!
# Least squares without rounding

On real numbers the normal equations of a chassis are a symmetric matrix whose
determinant measures how far the wheels are spread. It vanishes only if all
wheels stand at one place, so every chassis with distinct wheels can be built.
The velocity that such a chassis finds for its wheels solves the normal
equations.
-/

namespace SwerveLocalization.Exact

open Matrix

/-! ## Real vectors and matrices -/

/-- The vector with real components. -/
def vec (u : Fin 3 → ℝ) : Vec3 Exact := ⟨real (u 0), real (u 1), real (u 2)⟩

/-- The matrix with real entries. -/
def mat (m : Matrix (Fin 3) (Fin 3) ℝ) : Matrix3 Exact :=
  ⟨real (m 0 0), real (m 0 1), real (m 0 2), real (m 1 0), real (m 1 1), real (m 1 2),
    real (m 2 0), real (m 2 1), real (m 2 2)⟩

variable (u v : Fin 3 → ℝ) (m n : Matrix (Fin 3) (Fin 3) ℝ) (k : ℝ)

theorem vec_add : vec u + vec v = vec (u + v) := rfl

theorem scale_vec : (vec u).scale (real k) = vec (k • u) := by
  simp only [Vec3.scale, vec, real_mul_real, Pi.smul_apply, smul_eq_mul, mul_comm]

theorem dot_vec : (vec u).dot (vec v) = real (u ⬝ᵥ v) := by
  rw [dotProduct, Fin.sum_univ_three]
  rfl

theorem mat_add : mat m + mat n = mat (m + n) := rfl

theorem square_vec : Matrix3.square (vec u) = mat (vecMulVec u u) := rfl

theorem mulVec_mat : (mat m).mulVec (vec u) = vec (m *ᵥ u) := by
  have hrow : ∀ i, (vec (m i)).dot (vec u) = real ((m *ᵥ u) i) := fun i => dot_vec (m i) u
  show Vec3.mk ((vec (m 0)).dot (vec u)) ((vec (m 1)).dot (vec u)) ((vec (m 2)).dot (vec u)) = _
  rw [hrow, hrow, hrow]
  rfl

theorem det_mat : (mat m).det = real m.det := by
  rw [det_fin_three]
  show real _ = real _
  congr 1
  ring

theorem inverse?_mat {m : Matrix (Fin 3) (Fin 3) ℝ} (hm : m.det ≠ 0) :
    (mat m).inverse? = some (mat m⁻¹) := by
  have hdet : ¬ (real m.det == 0) = true := by
    rw [zero_eq, real_beq_real]
    exact hm
  have hentry : ∀ i j, m⁻¹ i j = m.adjugate i j / m.det := by
    intro i j
    rw [inv_def, Ring.inverse_eq_inv', Matrix.smul_apply, smul_eq_mul, inv_mul_eq_div]
  unfold Matrix3.inverse?
  dsimp only
  rw [det_mat, if_neg hdet]
  simp only [mat, real_mul_real, real_sub_real, neg_real, real_div_real _ _ hm, hentry,
    adjugate_fin_three, Option.some.injEq, Matrix3.mk.injEq, real.injEq]
  -- the minors are written with their factors in another order
  refine ⟨?_, ?_, ?_, ?_, ?_, ?_, ?_, ?_, ?_⟩ <;> simp <;> ring

/-! ## The normal equations of a chassis -/

/-- The equation of a wheel's velocity along the chassis. -/
def along (o : ℂ) : Fin 3 → ℝ := ![1, 0, -o.im]

/-- The equation of a wheel's velocity across the chassis. -/
def across (o : ℂ) : Fin 3 → ℝ := ![0, 1, o.re]

theorem alongRow_point (o : ℂ) : alongRow (point o) = vec (along o) := rfl

theorem acrossRow_point (o : ℂ) : acrossRow (point o) = vec (across o) := rfl

/-- The matrix of the normal equations. -/
def normal (offsets : Wheels ℂ) : Matrix (Fin 3) (Fin 3) ℝ :=
  (offsets.toList.map fun o =>
    vecMulVec (along o) (along o) + vecMulVec (across o) (across o)).sum

/-- The right side of the normal equations for given velocities of the wheels. -/
def moment (offsets velocities : Wheels ℂ) : Fin 3 → ℝ :=
  (offsets.zipWith (fun o z => z.re • along o + z.im • across o) velocities).toList.sum

/-- The middle of the wheels. -/
noncomputable def centre (offsets : Wheels ℂ) : ℂ := offsets.toList.sum / 4

/-- How far the wheels are spread: the sum of their squared distances from their
middle. -/
noncomputable def spread (offsets : Wheels ℂ) : ℝ :=
  (offsets.toList.map fun o => ‖o - centre offsets‖ ^ 2).sum

variable {offsets : Wheels ℂ}

theorem normalMatrix_point (offsets : Wheels ℂ) :
    Chassis.normalMatrix (offsets.map point) = mat (normal offsets) := by
  simp only [Chassis.normalMatrix, Wheels.map, alongRow_point, acrossRow_point, square_vec, mat_add]
  congr 1
  simp only [normal, Wheels.toList, List.map_cons, List.map_nil, List.sum_cons, List.sum_nil]
  abel

/-- The determinant of the normal equations is sixteen times the spread. -/
theorem det_normal (offsets : Wheels ℂ) : (normal offsets).det = 16 * spread offsets := by
  have hsq : ∀ z : ℂ, ‖z‖ ^ 2 = z.re * z.re + z.im * z.im := fun z => Complex.sq_norm z
  rw [det_fin_three]
  simp only [normal, spread, centre, hsq, Wheels.toList, List.map_cons, List.map_nil,
    List.sum_cons, List.sum_nil, Matrix.add_apply, vecMulVec_apply, along, across]
  simp
  ring

theorem spread_pos (h : offsets.frontLeft ≠ offsets.frontRight) : 0 < spread offsets := by
  have hterm : ∀ o ∈ offsets.toList, o ≠ centre offsets → 0 < spread offsets := by
    intro o ho hne
    have hpos : 0 < ‖o - centre offsets‖ ^ 2 := pow_pos (norm_pos_iff.mpr (sub_ne_zero.mpr hne)) 2
    refine hpos.trans_le (List.single_le_sum ?_ _ (List.mem_map_of_mem ho))
    intro x hx
    obtain ⟨o', -, rfl⟩ := List.mem_map.mp hx
    positivity
  -- two different wheels are not both in the middle
  by_cases hleft : offsets.frontLeft = centre offsets
  · exact hterm offsets.frontRight (by simp [Wheels.toList]) fun hright => h (hleft.trans hright.symm)
  · exact hterm offsets.frontLeft (by simp [Wheels.toList]) hleft

/-! ## Building a chassis -/

/-- The wheels are at distances at which they can be told apart. -/
def Apart (offsets : Wheels ℂ) : Prop := offsets.toList.Pairwise fun o o' => 1e-9 ≤ ‖o - o'‖

/-- Wheels that are a metre apart in one coordinate can be told apart. -/
theorem Apart.of_coordinates
    (h : offsets.toList.Pairwise fun o o' => 1 ≤ |(o - o').re| ∨ 1 ≤ |(o - o').im|) :
    Apart offsets := by
  refine h.imp fun {o o'} hfar => ?_
  have hlong : 1 ≤ ‖o - o'‖ := hfar.elim (fun hre => hre.trans (Complex.abs_re_le_norm _))
    fun him => him.trans (Complex.abs_im_le_norm _)
  exact le_trans (by norm_num) hlong

/-- Four wheels, three of them in a row. -/
noncomputable def scattered : Wheels ℂ := ⟨Complex.I, 0, 1, 3⟩

theorem apart_scattered : Apart scattered := by
  apply Apart.of_coordinates
  simp [scattered, Wheels.toList]
  norm_num

theorem forall_distinctPairs {β : Type} {R : β → β → Prop} {l : List β} :
    (∀ p ∈ distinctPairs l, R p.1 p.2) ↔ l.Pairwise R := by
  induction l with
  | nil => simp [distinctPairs]
  | cons b rest ih =>
    rw [List.pairwise_cons, ← ih]
    simp [distinctPairs, or_imp, forall_and]

theorem coincidingOffsets?_point :
    Chassis.coincidingOffsets? (offsets.map point) = none ↔ Apart offsets := by
  have hnear : ∀ o o' : ℂ, ¬ (point o - point o').norm < (1e-9 : Exact) ↔ 1e-9 ≤ ‖o - o'‖ := by
    intro o o'
    rw [point_sub, norm_point, show (1e-9 : Exact) = real 1e-9 from rfl, real_lt_real, not_lt]
  unfold Chassis.coincidingOffsets? Apart
  rw [Option.map_eq_none_iff, List.find?_eq_none]
  simp only [decide_eq_true_eq]
  rw [forall_distinctPairs (R := fun a b : Vec2 Exact × ℕ => ¬ (a.1 - b.1).norm < 1e-9),
    ← List.pairwise_map (f := Prod.fst) (R := fun a b : Vec2 Exact => ¬ (a - b).norm < 1e-9),
    List.zipIdx_map_fst, Wheels.toList_map, List.pairwise_map]
  simp only [hnear]

theorem Apart.det_ne_zero (h : Apart offsets) : (normal offsets).det ≠ 0 := by
  have hfront : offsets.frontLeft ≠ offsets.frontRight := by
    intro heq
    have hfar : 1e-9 ≤ ‖offsets.frontLeft - offsets.frontRight‖ :=
      List.rel_of_pairwise_cons h List.mem_cons_self
    rw [heq, sub_self, norm_zero] at hfar
    norm_num at hfar
  rw [det_normal]
  exact (mul_pos (by norm_num) (spread_pos hfront)).ne'

/-- The chassis that is built for these wheels. -/
noncomputable def chassisOf (offsets : Wheels ℂ) : Chassis Exact :=
  ⟨offsets.map point, offsets.map fun o =>
    ⟨vec ((normal offsets)⁻¹ *ᵥ along o), vec ((normal offsets)⁻¹ *ᵥ across o)⟩⟩

/-- Wheels that can be told apart always make a chassis. -/
theorem build_point (h : Apart offsets) :
    Chassis.build (offsets.map point) = .ok (chassisOf offsets) := by
  have hfinite : Chassis.nonFiniteOffset? (offsets.map point) = none := rfl
  unfold Chassis.build
  rw [hfinite, coincidingOffsets?_point.mpr h, normalMatrix_point, inverse?_mat h.det_ne_zero]
  simp only [Wheels.map, alongRow_point, acrossRow_point, mulVec_mat]
  rfl

/-- The corners of a square, two metres wide. -/
def squareCorners : Wheels ℂ := ⟨⟨1, 1⟩, ⟨1, -1⟩, ⟨-1, 1⟩, ⟨-1, -1⟩⟩

theorem apart_squareCorners : Apart squareCorners := by
  apply Apart.of_coordinates
  simp [squareCorners, Wheels.toList]
  norm_num

/-- The wheels at the corners of a square. -/
noncomputable def squareOffsets : Wheels (Vec2 Exact) := Chassis.rectangle (real 1) (real 1)

theorem build_squareOffsets : Chassis.build squareOffsets = .ok (chassisOf squareCorners) := by
  have hcorners : squareOffsets = squareCorners.map point := rfl
  rw [hcorners]
  exact build_point apart_squareCorners

theorem exists_wheels_point {offsets : Wheels (Vec2 Exact)}
    (h : ∀ o ∈ offsets.toList, o.isFinite = true) :
    ∃ positions : Wheels ℂ, offsets = positions.map point := by
  obtain ⟨fl, hfl⟩ := exists_point (h offsets.frontLeft (by simp [Wheels.toList]))
  obtain ⟨fr, hfr⟩ := exists_point (h offsets.frontRight (by simp [Wheels.toList]))
  obtain ⟨bl, hbl⟩ := exists_point (h offsets.backLeft (by simp [Wheels.toList]))
  obtain ⟨br, hbr⟩ := exists_point (h offsets.backRight (by simp [Wheels.toList]))
  refine ⟨⟨fl, fr, bl, br⟩, ?_⟩
  simp only [Wheels.map, ← hfl, ← hfr, ← hbl, ← hbr]

/-- A chassis is never refused for its normal equations. -/
theorem build_ne_singular (offsets : Wheels (Vec2 Exact)) :
    Chassis.build offsets ≠ .error .singularOffsets := by
  intro h
  cases hfinite : Chassis.nonFiniteOffset? offsets with
  | some i => simp [Chassis.build, hfinite] at h
  | none =>
    have hreal : ∀ o ∈ offsets.toList, o.isFinite = true := by
      simpa [Chassis.nonFiniteOffset?] using hfinite
    obtain ⟨positions, rfl⟩ := exists_wheels_point hreal
    cases hdistinct : Chassis.coincidingOffsets? (positions.map point) with
    | some p => simp [Chassis.build, hfinite, hdistinct] at h
    | none =>
      rw [build_point (coincidingOffsets?_point.mp hdistinct)] at h
      contradiction

/-- A chassis finds the velocity that solves the normal equations. -/
theorem solve_chassisOf (velocities : Wheels ℂ) :
    (chassisOf offsets).solve (velocities.map point)
      = vec ((normal offsets)⁻¹ *ᵥ moment offsets velocities) := by
  have hscale : ∀ (k : ℝ) (u : Fin 3 → ℝ), (vec ((normal offsets)⁻¹ *ᵥ u)).scale (real k)
      = vec ((normal offsets)⁻¹ *ᵥ (k • u)) := by
    intro k u
    rw [scale_vec, mulVec_smul]
  simp only [Chassis.solve, chassisOf, Wheels.map, Wheels.zipWith, point, hscale, vec_add,
    ← mulVec_add]
  congr 2
  simp only [moment, Wheels.zipWith, Wheels.toList, List.sum_cons, List.sum_nil]
  abel

end SwerveLocalization.Exact
