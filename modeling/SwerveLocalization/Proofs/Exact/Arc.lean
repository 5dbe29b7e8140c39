import Mathlib
import SwerveLocalization.Proofs.Exact.Motion

/-!
# Arcs and their chords

A robot that drives and turns evenly follows an arc. Each step of its estimate
replaces a stretch of the arc by the chord, so without rounding it ends where
the stretch ends. Stretches of one arc follow each other, and so do their chords.
-/

namespace SwerveLocalization.Exact

open Real Scalar

/-! ## Stretches of an arc -/

/-- How far along the first axis a robot gets that starts at a heading, turns
evenly by `turn` and drives straight ahead at speed one, in the time `s`. -/
noncomputable def reachAlong (heading turn s : ℝ) : ℝ :=
  if turn = 0 then s * cos heading else (sin (heading + s * turn) - sin heading) / turn

/-- How far along the second axis it gets. -/
noncomputable def reachAcross (heading turn s : ℝ) : ℝ :=
  if turn = 0 then s * sin heading else (cos heading - cos (heading + s * turn)) / turn

/-- The length of a chord relative to its arc. A small turn counts as none. -/
noncomputable def chord (a : ℝ) : ℝ := if |a| < 1e-9 then 1 else 2.0 * sin (a / 2.0) / a

variable {heading turn s t : ℝ}

@[simp] theorem reachAlong_zero : reachAlong heading turn 0 = 0 := by
  simp [reachAlong]

@[simp] theorem reachAcross_zero : reachAcross heading turn 0 = 0 := by
  simp [reachAcross]

@[simp] theorem chord_zero : chord 0 = 1 := by
  rw [chord, if_pos (by norm_num)]

theorem chord_eq {a : ℝ} (h : ¬ |a| < 1e-9) : chord a = 2 * sin (a / 2) / a := by
  rw [chord, if_neg h]
  norm_num

/-- The heading in the middle of a stretch. -/
theorem mean_heading : heading + s * turn + (t - s) * turn / 2
    = (heading + t * turn + (heading + s * turn)) / 2 := by ring

theorem chord_of_large (heading : ℝ) (h : 1e-9 ≤ |(t - s) * turn|) :
    turn ≠ 0 ∧ (t - s) * chord ((t - s) * turn)
      = 2 * sin ((heading + t * turn - (heading + s * turn)) / 2) / turn := by
  have hproduct : (t - s) * turn ≠ 0 := by
    intro hzero
    rw [hzero, abs_zero] at h
    norm_num at h
  have hturn : turn ≠ 0 := right_ne_zero_of_mul hproduct
  have hstep : t - s ≠ 0 := left_ne_zero_of_mul hproduct
  have hhalf : (heading + t * turn - (heading + s * turn)) / 2 = (t - s) * turn / 2 := by ring
  refine ⟨hturn, ?_⟩
  rw [chord_eq (not_lt.mpr h), hhalf]
  field_simp

/-- A chord along the mean heading of a stretch leads from its start to its end. -/
theorem chord_along (heading : ℝ) (h : turn = 0 ∨ 1e-9 ≤ |(t - s) * turn|) :
    (t - s) * chord ((t - s) * turn) * cos (heading + s * turn + (t - s) * turn / 2)
      = reachAlong heading turn t - reachAlong heading turn s := by
  rcases h with rfl | h
  · simp [reachAlong, sub_mul]
  · obtain ⟨hturn, hchord⟩ := chord_of_large heading h
    have hdifference := sin_sub_sin (heading + t * turn) (heading + s * turn)
    rw [hchord, mean_heading, reachAlong, reachAlong, if_neg hturn, if_neg hturn, ← sub_div,
      sub_sub_sub_cancel_right, hdifference]
    ring

theorem chord_across (heading : ℝ) (h : turn = 0 ∨ 1e-9 ≤ |(t - s) * turn|) :
    (t - s) * chord ((t - s) * turn) * sin (heading + s * turn + (t - s) * turn / 2)
      = reachAcross heading turn t - reachAcross heading turn s := by
  rcases h with rfl | h
  · simp [reachAcross, sub_mul]
  · obtain ⟨hturn, hchord⟩ := chord_of_large heading h
    have hdifference := cos_sub_cos (heading + s * turn) (heading + t * turn)
    rw [hchord, mean_heading, reachAcross, reachAcross, if_neg hturn, if_neg hturn, ← sub_div,
      sub_sub_sub_cancel_left, hdifference, add_comm (heading + s * turn),
      ← neg_sub (heading + t * turn), neg_div, sin_neg]
    ring

/-! ## Moves of real poses -/

theorem chordRatio_real (a : ℝ) : Pose.chordRatio (real a) = real (chord a) := by
  have hsmall : (1e-9 : Exact) = real 1e-9 := rfl
  have hiff : magnitude (real a) < (1e-9 : Exact) ↔ |a| < 1e-9 := by
    rw [magnitude_real, hsmall, real_lt_real]
  unfold Pose.chordRatio
  by_cases h : |a| < 1e-9
  · rw [if_pos (hiff.mpr h), chord, if_pos h]
    rfl
  · have hzero : a ≠ 0 := by
      rintro rfl
      norm_num at h
    rw [if_neg (mt hiff.mp h), chord_eq h, two_eq, real_div_real a 2 (by norm_num)]
    exact real_div_real (2 * sin (a / 2)) a hzero

theorem real_half (a : ℝ) : real a / (2.0 : Exact) = real (a / 2) := by
  rw [two_eq]
  exact real_div_real a 2 (by norm_num)

/-- A real pose moves along the chord, turned into the mean heading. The heading
matters as an angle only. -/
theorem move_real {θ : ℝ} (hθ : (θ : Real.Angle) = heading) (x y dx dy dθ : ℝ) :
    (Pose.mk ⟨real x, real y⟩ (real θ)).move ⟨real dx, real dy, real dθ⟩
      = Pose.make
        ⟨real (x + (dx * (chord dθ * cos (heading + dθ / 2))
            - dy * (chord dθ * sin (heading + dθ / 2)))),
          real (y + (dx * (chord dθ * sin (heading + dθ / 2))
            + dy * (chord dθ * cos (heading + dθ / 2))))⟩
        (real (heading + dθ)) := by
  have hangle : ∀ a : ℝ, ((θ + a : ℝ) : Real.Angle) = (heading + a : ℝ) := by
    intro a
    rw [Angle.coe_add, hθ, Angle.coe_add]
  have hcos : cos (θ + dθ / 2) = cos (heading + dθ / 2) := by
    rw [← Angle.cos_coe, hangle, Angle.cos_coe]
  have hsin : sin (θ + dθ / 2) = sin (heading + dθ / 2) := by
    rw [← Angle.sin_coe, hangle, Angle.sin_coe]
  unfold Pose.move Pose.make
  simp only [chordRatio_real, real_half, real_add_real, wrap_real, hangle]
  refine congrArg₂ Pose.mk (congrArg₂ Vec2.mk (congrArg real ?_) (congrArg real ?_)) rfl
  · show x + (cos (θ + dθ / 2) * (dx * chord dθ) - sin (θ + dθ / 2) * (dy * chord dθ)) = _
    rw [hcos, hsin]
    ring
  · show y + (sin (θ + dθ / 2) * (dx * chord dθ) + cos (θ + dθ / 2) * (dy * chord dθ)) = _
    rw [hcos, hsin]
    ring

end SwerveLocalization.Exact
