import Mathlib
import SwerveLocalization.Proofs.Exact.RigidMotion

/-!
# A step follows an arc of constant curvature

A robot that keeps its speed and its turn rate, as it feels them, describes an
arc. A step of dead reckoning goes along one chord in the mean heading instead.
Main statement: the chord ends where the arc does, except that a tiny turn is
taken for none, which is off by less than the square of the turn, and a step
back along the arc undoes the step.
-/

namespace SwerveLocalization

/-- The same motion backwards. -/
def Twist.reverse {α : Type} [Scalar α] (m : Twist α) : Twist α := ⟨-m.dx, -m.dy, -m.dtheta⟩

namespace Exact

open Real Scalar

/-! ## Driving along an arc -/

/-- A robot drives along `path` from `z`. As it feels it, its velocity is always `d` and it
turns at the constant rate `turn`. -/
structure Drives (z d : ℂ) (heading turn : ℝ) (path : ℝ → ℂ) : Prop where
  start : path 0 = z
  velocity : ∀ s, HasDerivAt path (Complex.exp ((heading + s * turn : ℝ) * Complex.I) * d) s

/-- The place that a robot reaches which drives straight ahead at speed one. -/
noncomputable def reach (heading turn s : ℝ) : ℂ :=
  ⟨reachAlong heading turn s, reachAcross heading turn s⟩

variable {z d : ℂ} {heading turn : ℝ} {path : ℝ → ℂ}

theorem hasDerivAt_reachAlong (s : ℝ) :
    HasDerivAt (reachAlong heading turn) (cos (heading + s * turn)) s := by
  have hangle : HasDerivAt (fun s => heading + s * turn) turn s := by
    simpa using ((hasDerivAt_id s).mul_const turn).const_add heading
  by_cases h : turn = 0
  · subst h
    have hline : reachAlong heading 0 = fun s => s * cos heading := funext fun s => if_pos rfl
    rw [hline]
    simpa using (hasDerivAt_id s).mul_const (cos heading)
  · have harc : reachAlong heading turn = fun s => (sin (heading + s * turn) - sin heading) / turn :=
      funext fun s => if_neg h
    rw [harc]
    simpa [h] using (hangle.sin.sub_const (sin heading)).div_const turn

theorem hasDerivAt_reachAcross (s : ℝ) :
    HasDerivAt (reachAcross heading turn) (sin (heading + s * turn)) s := by
  have hangle : HasDerivAt (fun s => heading + s * turn) turn s := by
    simpa using ((hasDerivAt_id s).mul_const turn).const_add heading
  by_cases h : turn = 0
  · subst h
    have hline : reachAcross heading 0 = fun s => s * sin heading := funext fun s => if_pos rfl
    rw [hline]
    simpa using (hasDerivAt_id s).mul_const (sin heading)
  · have harc : reachAcross heading turn = fun s => (cos heading - cos (heading + s * turn)) / turn :=
      funext fun s => if_neg h
    rw [harc]
    simpa [h] using (hangle.cos.const_sub (cos heading)).div_const turn

theorem hasDerivAt_reach (s : ℝ) :
    HasDerivAt (reach heading turn) (Complex.exp ((heading + s * turn : ℝ) * Complex.I)) s := by
  have hsum : reach heading turn
      = fun s => (reachAlong heading turn s : ℂ) + reachAcross heading turn s * Complex.I :=
    funext fun s => Complex.mk_eq_add_mul_I _ _
  rw [hsum, Complex.exp_mul_I, ← Complex.ofReal_cos, ← Complex.ofReal_sin]
  exact (hasDerivAt_reachAlong s).ofReal_comp.add
    ((hasDerivAt_reachAcross s).ofReal_comp.mul_const Complex.I)

/-- The velocity that a robot feels only turns and scales its way. -/
theorem drives_reach (z d : ℂ) (heading turn : ℝ) :
    Drives z d heading turn (fun s => z + reach heading turn s * d) where
  start := by simp [reach, Complex.ext_iff]
  velocity s := ((hasDerivAt_reach s).mul_const d).const_add z

/-- There is one path only. -/
theorem Drives.eq_reach (h : Drives z d heading turn path) (s : ℝ) :
    path s = z + reach heading turn s * d := by
  have hreach := drives_reach z d heading turn
  -- the difference of two such paths does not move
  have hzero : ∀ s, HasDerivAt (fun s => path s - (z + reach heading turn s * d)) 0 s := by
    intro s
    have hdifference := (h.velocity s).sub (hreach.velocity s)
    rwa [sub_self] at hdifference
  have hconst : path s - (z + reach heading turn s * d) = path 0 - (z + reach heading turn 0 * d) :=
    is_const_of_deriv_eq_zero (fun s => (hzero s).differentiableAt) (fun s => (hzero s).deriv) s 0
  rw [h.start, hreach.start, sub_self] at hconst
  exact sub_eq_zero.mp hconst

/-! ## The chord of an arc -/

/-- The displacement along an arc that turns by `turn` in unit time. -/
noncomputable def arcDisplacement (d : ℂ) (heading turn : ℝ) : ℂ :=
  ⟨((sin (heading + turn) - sin heading) * d.re + (cos (heading + turn) - cos heading) * d.im) / turn,
    ((cos heading - cos (heading + turn)) * d.re + (sin (heading + turn) - sin heading) * d.im) / turn⟩

theorem reach_one_mul (hturn : turn ≠ 0) : reach heading turn 1 * d = arcDisplacement d heading turn := by
  apply Complex.ext <;>
    simp only [reach, arcDisplacement, reachAlong, reachAcross, if_neg hturn, one_mul, Complex.mul_re,
      Complex.mul_im] <;> ring

theorem reach_one_straight : reach heading 0 1 = Complex.exp (heading * Complex.I) := by
  rw [Complex.exp_mul_I, ← Complex.ofReal_cos, ← Complex.ofReal_sin, ← Complex.mk_eq_add_mul_I]
  simp [reach, reachAlong, reachAcross]

/-- The end of an arc lies in the mean heading. -/
theorem reach_one (heading turn : ℝ) :
    reach heading turn 1 = Complex.exp ((heading + turn / 2 : ℝ) * Complex.I) * sinc (turn / 2) := by
  rcases eq_or_ne turn 0 with rfl | hturn
  · simp [reach_one_straight]
  have hhalf : turn / 2 ≠ 0 := div_ne_zero hturn two_ne_zero
  have hmean : (heading + turn + heading) / 2 = heading + turn / 2 := by ring
  have hturned : (heading + turn - heading) / 2 = turn / 2 := by ring
  have hsin := sin_sub_sin (heading + turn) heading
  have hcos := cos_sub_cos heading (heading + turn)
  rw [hmean, hturned] at hsin
  rw [add_comm heading (heading + turn), hmean, ← neg_sub (heading + turn) heading, neg_div, sin_neg,
    hturned] at hcos
  apply Complex.ext
  · rw [Complex.re_mul_ofReal, Complex.exp_ofReal_mul_I_re, sinc_of_ne_zero hhalf]
    simp only [reach, reachAlong, if_neg hturn, one_mul, hsin]
    field_simp
  · rw [Complex.im_mul_ofReal, Complex.exp_ofReal_mul_I_im, sinc_of_ne_zero hhalf]
    simp only [reach, reachAcross, if_neg hturn, one_mul, hcos]
    field_simp

theorem chord_eq_sinc (h : 1e-9 ≤ |turn|) : chord turn = sinc (turn / 2) := by
  have hturn : turn ≠ 0 := by
    rintro rfl
    norm_num at h
  rw [chord_eq (not_lt.mpr h), sinc_of_ne_zero (div_ne_zero hturn two_ne_zero)]
  field_simp

theorem chord_neg (turn : ℝ) : chord (-turn) = chord turn := by
  by_cases h : |turn| < 1e-9
  · rw [chord, chord, abs_neg, if_pos h, if_pos h]
  · rw [chord_eq h, chord_eq (by rwa [abs_neg]), neg_div, sin_neg]
    ring

theorem abs_one_sub_sinc_le (x : ℝ) : |1 - sinc x| ≤ x ^ 2 / 6 := by
  rcases eq_or_ne x 0 with rfl | hx
  · simp
  have hfactor : x - sin x = x * (1 - sinc x) := by
    rw [sinc_of_ne_zero hx]
    field_simp
  have hcube : |x| * |1 - sinc x| ≤ |x| * (x ^ 2 / 6) := by
    calc |x| * |1 - sinc x| = |x - sin x| := by rw [hfactor, abs_mul]
      _ ≤ |x| ^ 3 / 6 := abs_sub_sin_le x
      _ = |x| * (x ^ 2 / 6) := by rw [← sq_abs x]; ring
  exact le_of_mul_le_mul_left hcube (abs_pos.mpr hx)

/-! ## Steps -/

/-- The motion of velocity `d` and turn rate `turn` over unit time. -/
def arcTwist (d : ℂ) (turn : ℝ) : Twist Exact := ⟨real d.re, real d.im, real turn⟩

/-- Where a step from `z` leads that goes along its chord in the heading `mean`. -/
noncomputable def chordEnd (z d : ℂ) (mean turn : ℝ) : ℂ :=
  z + Complex.exp (mean * Complex.I) * (d * chord turn)

theorem move_arcTwist (z d : ℂ) (heading turn : ℝ) :
    (Pose.mk (point z) (real heading)).move (arcTwist d turn)
      = ⟨point (chordEnd z d (heading + turn / 2) turn),
          real ((heading + turn : ℝ) : Real.Angle).toReal⟩ :=
  move_point z d heading turn

theorem reverse_arcTwist (d : ℂ) (turn : ℝ) : (arcTwist d turn).reverse = arcTwist (-d) (-turn) := rfl

/-- The mean heading of a step back is the mean heading of the step, up to whole turns. -/
theorem chordEnd_reverse (z d : ℂ) (heading turn : ℝ) :
    chordEnd (chordEnd z d (heading + turn / 2) turn) (-d)
      (((heading + turn : ℝ) : Real.Angle).toReal + -turn / 2) (-turn) = z := by
  -- the heading has been wrapped, so the two mean headings agree as angles only
  have hmean : (((((heading + turn : ℝ) : Real.Angle).toReal + -turn / 2 : ℝ) : Real.Angle))
      = (heading + turn / 2 : ℝ) := by
    rw [Angle.coe_add, Angle.coe_toReal, ← Angle.coe_add]
    congr 1
    ring
  have hexp : Complex.exp (((((heading + turn : ℝ) : Real.Angle).toReal + -turn / 2 : ℝ) : ℂ)
      * Complex.I) = Complex.exp ((heading + turn / 2 : ℝ) * Complex.I) := by
    rw [← Circle.coe_exp, ← Circle.coe_exp, ← Angle.toCircle_coe, ← Angle.toCircle_coe, hmean]
  rw [chordEnd, chordEnd, hexp, chord_neg]
  ring

/-- A step back along the arc leads to the start. -/
theorem move_reverse (z d : ℂ) (heading turn : ℝ) :
    ((Pose.mk (point z) (real heading)).move (arcTwist d turn)).move (arcTwist d turn).reverse
      = .make (point z) (real heading) := by
  rw [reverse_arcTwist, move_arcTwist, move_arcTwist, chordEnd_reverse, Pose.make, wrap_real]
  congr 2
  rw [Angle.coe_add, Angle.coe_toReal, ← Angle.coe_add, add_neg_cancel_right]

theorem chordEnd_of_large (h : 1e-9 ≤ |turn|) :
    chordEnd z d (heading + turn / 2) turn = z + reach heading turn 1 * d := by
  rw [chordEnd, chord_eq_sinc h, reach_one]
  ring

/-- A tiny turn bends the arc by less than its square. -/
theorem norm_chordEnd_sub_le (h : |turn| < 1e-9) :
    ‖chordEnd z d (heading + turn / 2) turn - (z + reach heading turn 1 * d)‖ ≤ turn ^ 2 / 24 * ‖d‖ := by
  have hdifference : chordEnd z d (heading + turn / 2) turn - (z + reach heading turn 1 * d)
      = Complex.exp ((heading + turn / 2 : ℝ) * Complex.I) * ((1 - sinc (turn / 2) : ℝ) * d) := by
    rw [chordEnd, chord, if_pos h, reach_one]
    push_cast
    ring
  have hsinc := abs_one_sub_sinc_le (turn / 2)
  have hsquare : (turn / 2) ^ 2 / 6 = turn ^ 2 / 24 := by ring
  rw [hsquare] at hsinc
  rw [hdifference, norm_mul, norm_mul, Complex.norm_exp_ofReal_mul_I, one_mul, Complex.norm_real]
  exact mul_le_mul_of_nonneg_right hsinc (norm_nonneg d)

/-- A step from any real pose leads to a real pose. Along an arc that turns by at least
the threshold it ends where the arc does, and the end is known in closed form. For a
smaller turn the two places differ by at most a 24th of its square, relative to the
way. The heading is the sum of both angles, between `-π` and `π`, and the step back
along the arc leads back to where the step started. -/
theorem move_constantCurvature (z d : ℂ) (heading turn : ℝ) :
    let p : Pose Exact := ⟨point z, real heading⟩
    let m := arcTwist d turn
    ∃ w θ, p.move m = ⟨point w, real θ⟩ ∧
      (1e-9 ≤ |turn| → w - z = arcDisplacement d heading turn) ∧
      (∃ path, Drives z d heading turn path) ∧
      (∀ path, Drives z d heading turn path →
        (turn ≠ 0 → path 1 - z = arcDisplacement d heading turn) ∧
        (turn = 0 → path 1 - z = Complex.exp (heading * Complex.I) * d) ∧
        (1e-9 ≤ |turn| → w = path 1) ∧
        (|turn| < 1e-9 → ‖w - path 1‖ ≤ turn ^ 2 / 24 * ‖d‖)) ∧
      (-π < θ ∧ θ ≤ π ∧ ∃ k : ℤ, θ - (heading + turn) = 2 * π * k) ∧
      (p.move m).move m.reverse = .make p.position p.heading ∧
      (-π < heading → heading ≤ π → (p.move m).move m.reverse = p) := by
  intro p m
  have hback : (p.move m).move m.reverse = .make p.position p.heading := move_reverse z d heading turn
  refine ⟨_, _, move_arcTwist z d heading turn, ?closed, ⟨_, drives_reach z d heading turn⟩, ?along,
    ⟨Angle.neg_pi_lt_toReal _, Angle.toReal_le_pi _, ?turned⟩, hback, ?wrapped⟩
  case closed =>
    intro hlarge
    have hturn : turn ≠ 0 := by
      rintro rfl
      norm_num at hlarge
    rw [chordEnd_of_large hlarge, add_sub_cancel_left, reach_one_mul hturn]
  case along =>
    intro path hpath
    rw [hpath.eq_reach 1, add_sub_cancel_left]
    refine ⟨reach_one_mul, ?_, chordEnd_of_large, norm_chordEnd_sub_le⟩
    rintro rfl
    rw [reach_one_straight]
  case turned =>
    exact Angle.angle_eq_iff_two_pi_dvd_sub.mp (Angle.coe_toReal _)
  case wrapped =>
    intro hlower hupper
    rw [hback, Pose.make]
    show Pose.mk (point z) (Angle.wrap (real heading)) = p
    rw [wrap_real, Angle.toReal_coe_eq_self_iff.mpr ⟨hlower, hupper⟩]

/-- A quarter of a circle with radius one, and back. -/
theorem move_constantCurvature_quarter :
    let p : Pose Exact := ⟨point 0, real 0⟩
    let m := arcTwist (π / 2 : ℝ) (π / 2)
    p.move m = ⟨point (1 + Complex.I), real (π / 2)⟩ ∧ (p.move m).move m.reverse = p := by
  intro p m
  have hpi := pi_pos
  obtain ⟨w, θ, hmove, hend, -, -, ⟨hlower, hupper, k, hk⟩, -, hback⟩ :=
    move_constantCurvature 0 (π / 2 : ℝ) 0 (π / 2)
  have hlarge : (1e-9 : ℝ) ≤ |π / 2| := by
    rw [abs_of_pos (half_pos hpi)]
    linarith [pi_gt_three]
  have hw : w = 1 + Complex.I := by
    have hquarter := hend hlarge
    rw [sub_zero] at hquarter
    rw [hquarter]
    apply Complex.ext <;> simp [arcDisplacement]
  have hθ : θ = π / 2 := by
    rw [eq_toReal (0 + π / 2) hlower hupper hk, zero_add]
    exact Angle.toReal_coe_eq_self_iff.mpr ⟨by linarith, by linarith⟩
  rw [hw, hθ] at hmove
  exact ⟨hmove, hback (neg_lt_zero.mpr hpi) hpi.le⟩

end Exact

end SwerveLocalization
