import Mathlib
import SwerveLocalization.Plane.Vector
import SwerveLocalization.Proofs.Exact.Number

/-!
# The floor plane without rounding

A vector of the floor plane with real components is a complex number. Lengths,
directions and rotations are then the absolute value, the argument and the
multiplication of complex numbers, which need no case split by quadrant.
-/

namespace SwerveLocalization.Exact

open Complex

/-- The vector that a complex number is. -/
def point (z : ℂ) : Vec2 Exact := ⟨real z.re, real z.im⟩

variable (z w : ℂ) (r θ : ℝ)

theorem exists_point {v : Vec2 Exact} (h : v.isFinite = true) : ∃ z, v = point z := by
  simp only [Vec2.isFinite, Bool.and_eq_true] at h
  obtain ⟨x, hx⟩ := isFinite_iff_exists.mp h.1
  obtain ⟨y, hy⟩ := isFinite_iff_exists.mp h.2
  exact ⟨⟨x, y⟩, congrArg₂ Vec2.mk hx hy⟩

@[simp] theorem point_sub : point z - point w = point (z - w) := rfl

@[simp] theorem direction_point : (point z).direction = real (arg z) := rfl

theorem norm_point : (point z).norm = real ‖z‖ := by
  have hsquare : z.re * z.re + z.im * z.im = ‖z‖ ^ 2 := (Complex.sq_norm z).symm
  have hroot : (point z).norm = real √(z.re * z.re + z.im * z.im) := by
    refine if_pos ?_
    rw [hsquare]
    positivity
  rw [hroot, hsquare, Real.sqrt_sq (norm_nonneg z)]

theorem scale_point : (point z).scale (real r) = point (z * r) := by
  refine congrArg₂ Vec2.mk (congrArg real ?_) (congrArg real ?_)
  · exact (re_mul_ofReal z r).symm
  · exact (im_mul_ofReal z r).symm

theorem polar_real : Vec2.polar (real r) (real θ) = point (r * Complex.exp (θ * I)) := by
  refine congrArg₂ Vec2.mk (congrArg real ?_) (congrArg real ?_)
  · rw [re_ofReal_mul, exp_ofReal_mul_I_re]
  · rw [im_ofReal_mul, exp_ofReal_mul_I_im]

theorem rotate_point : (point z).rotate (real θ) = point (Complex.exp (θ * I) * z) := by
  refine congrArg₂ Vec2.mk (congrArg real ?_) (congrArg real ?_)
  · rw [mul_re, exp_ofReal_mul_I_re, exp_ofReal_mul_I_im]
    exact (sub_eq_add_neg _ _).symm
  · rw [mul_im, exp_ofReal_mul_I_re, exp_ofReal_mul_I_im]
    exact add_comm _ _

end SwerveLocalization.Exact
