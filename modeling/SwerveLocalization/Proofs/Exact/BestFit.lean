import Mathlib
import SwerveLocalization.Proofs.Exact.WheelRoundTrip

/-!
# The best fit of a chassis to its wheels

The wheels of a real robot slip, so their velocities contradict each other. Main
statement: without rounding the velocity that a chassis finds for its wheels has a
smaller sum of squared errors than any other, so it is linear in what the wheels
do, and wheels that follow it give it back.
-/

namespace SwerveLocalization.Exact

open Matrix Complex

/-- The velocity of the wheel at `o` of a chassis that moves with `v`. -/
def wheelVector (o : ℂ) (v : Fin 3 → ℝ) : ℂ := ⟨along o ⬝ᵥ v, across o ⬝ᵥ v⟩

/-- The sum of the squared errors of `v` as an explanation of the wheels' velocities. -/
noncomputable def misfit (positions wheels : Wheels ℂ) (v : Fin 3 → ℝ) : ℝ :=
  (positions.zipWith (fun o w => ‖w - wheelVector o v‖ ^ 2) wheels).toList.sum

/-- The solution of the normal equations. -/
noncomputable def bestFit (positions wheels : Wheels ℂ) : Fin 3 → ℝ :=
  (normal positions)⁻¹ *ᵥ moment positions wheels

variable {positions : Wheels ℂ} (wheels : Wheels ℂ) (v e : Fin 3 → ℝ)

theorem wheelVector_eq (o : ℂ) : wheelVector o v = ⟨v 0 - v 2 * o.im, v 1 + v 2 * o.re⟩ := by
  simp only [wheelVector, along, across, dotProduct, Fin.sum_univ_three]
  apply Complex.ext <;> simp <;> ring

theorem wheelVector_add (o : ℂ) : wheelVector o (v + e) = wheelVector o v + wheelVector o e := by
  apply Complex.ext <;> simp [wheelVector, dotProduct_add]

theorem rolling_eq : rolling positions v = positions.map (wheelVector · v) := rfl

/-! ## Squared errors -/

/-- The normal equations hold the projections of the errors. -/
theorem normalError_dotProduct :
    (moment positions wheels - normal positions *ᵥ v) ⬝ᵥ e
      = (positions.zipWith (fun o w => (w - wheelVector o v).re * (wheelVector o e).re
          + (w - wheelVector o v).im * (wheelVector o e).im) wheels).toList.sum := by
  rw [← moment_rolling, rolling_eq]
  simp only [moment, wheelVector, Wheels.zipWith, Wheels.map, Wheels.toList, List.sum_cons, List.sum_nil,
    sub_dotProduct, add_dotProduct, smul_dotProduct, zero_dotProduct, smul_eq_mul, sub_re, sub_im]
  ring

/-- What another explanation adds to the squared errors. -/
theorem misfit_add :
    misfit positions wheels (v + e) = misfit positions wheels v
      - 2 * ((moment positions wheels - normal positions *ᵥ v) ⬝ᵥ e)
      + (positions.toList.map fun o => ‖wheelVector o e‖ ^ 2).sum := by
  have hwheel : ∀ o w : ℂ, ‖w - wheelVector o (v + e)‖ ^ 2 = ‖w - wheelVector o v‖ ^ 2
      - 2 * ((w - wheelVector o v).re * (wheelVector o e).re
        + (w - wheelVector o v).im * (wheelVector o e).im) + ‖wheelVector o e‖ ^ 2 := by
    intro o w
    simp only [wheelVector_add, Complex.sq_norm, normSq_apply, sub_re, sub_im, add_re, add_im]
    ring
  rw [normalError_dotProduct]
  simp only [misfit, hwheel, Wheels.zipWith, Wheels.toList, List.map_cons, List.map_nil, List.sum_cons,
    List.sum_nil]
  ring

/-- Every motion of the chassis moves a wheel. -/
theorem sum_wheelVector_pos (h : Apart positions) {e : Fin 3 → ℝ} (he : e ≠ 0) :
    0 < (positions.toList.map fun o => ‖wheelVector o e‖ ^ 2).sum := by
  have hnonneg : ∀ x ∈ positions.toList.map fun o => ‖wheelVector o e‖ ^ 2, 0 ≤ x := by
    intro x hx
    obtain ⟨o, -, rfl⟩ := List.mem_map.mp hx
    positivity
  refine (List.sum_nonneg hnonneg).lt_of_ne' fun hsum => he ?_
  have hrest : ∀ o ∈ positions.toList, wheelVector o e = 0 := by
    intro o ho
    have hle := List.single_le_sum hnonneg _ (List.mem_map_of_mem ho)
    rw [hsum] at hle
    exact norm_eq_zero.mp (pow_eq_zero_iff two_ne_zero |>.mp (le_antisymm hle (by positivity)))
  -- a motion that no wheel takes part in is in the kernel of the normal matrix
  have hnormal : normal positions *ᵥ e = 0 := by
    rw [← moment_rolling, rolling_eq, wheels_map_congr hrest]
    simp [moment, Wheels.map, Wheels.zipWith, Wheels.toList]
  exact eq_zero_of_mulVec_eq_zero h.det_ne_zero hnormal

/-- The solution of the normal equations has the smallest squared errors, and no other
motion has them. -/
theorem misfit_bestFit_lt (h : Apart positions) {v : Fin 3 → ℝ} (hv : v ≠ bestFit positions wheels) :
    misfit positions wheels (bestFit positions wheels) < misfit positions wheels v := by
  have hunit : IsUnit (normal positions).det := h.det_ne_zero.isUnit
  have hsolves : normal positions *ᵥ bestFit positions wheels = moment positions wheels := by
    rw [bestFit, mulVec_mulVec, mul_nonsing_inv _ hunit, one_mulVec]
  have hmore : misfit positions wheels (bestFit positions wheels + (v - bestFit positions wheels)) = _ :=
    misfit_add wheels (bestFit positions wheels) (v - bestFit positions wheels)
  -- at the solution the linear part of the difference vanishes
  rw [add_sub_cancel, hsolves, sub_self, zero_dotProduct, mul_zero, sub_zero] at hmore
  rw [hmore]
  exact lt_add_of_pos_right _ (sum_wheelVector_pos h (sub_ne_zero.mpr hv))

theorem bestFit_combination (a b : ℝ) (wheels wheels' : Wheels ℂ) :
    bestFit positions (wheels.zipWith (fun z z' => a * z + b * z') wheels')
      = a • bestFit positions wheels + b • bestFit positions wheels' := by
  have hmoment : moment positions (wheels.zipWith (fun z z' => a * z + b * z') wheels')
      = a • moment positions wheels + b • moment positions wheels' := by
    funext i
    simp only [moment, Wheels.zipWith, Wheels.toList, List.sum_cons, List.sum_nil, add_re, add_im,
      re_ofReal_mul, im_ofReal_mul, Pi.add_apply, Pi.smul_apply, Pi.zero_apply, smul_eq_mul]
    ring
  simp only [bestFit, hmoment, mulVec_add, mulVec_smul]

theorem bestFit_rolling (h : Apart positions) :
    bestFit positions (positions.map (wheelVector · v)) = v := by
  rw [bestFit, ← rolling_eq, moment_rolling, mulVec_mulVec, nonsing_inv_mul _ h.det_ne_zero.isUnit,
    one_mulVec]

/-! ## Wheel states -/

/-- The exact state of a wheel with a real speed and a real angle. -/
def exactState (s : WheelState ℝ) : WheelState Exact := ⟨real s.speed, real s.angle⟩

/-- The velocity of a wheel with this state. -/
noncomputable def stateVector (s : WheelState ℝ) : ℂ := s.speed * Complex.exp (s.angle * I)

theorem velocity_exactState (s : WheelState ℝ) : (exactState s).velocity = point (stateVector s) :=
  polar_real s.speed s.angle

theorem map_point_injective : Function.Injective (Wheels.map point) := by
  intro a b h
  simp only [Wheels.map, point, Wheels.mk.injEq, Vec2.mk.injEq, real.injEq, ← Complex.ext_iff] at h
  obtain ⟨hfl, hfr, hbl, hbr⟩ := h
  cases a
  cases b
  congr

theorem velocity_chassisOf (states : Wheels (WheelState ℝ)) :
    let fit := bestFit positions (states.map stateVector)
    (chassisOf positions).velocity (states.map exactState)
      = ⟨real (fit 0), real (fit 1), real (fit 2), .robot⟩ := by
  intro fit
  have hvectors : (states.map exactState).map WheelState.velocity = (states.map stateVector).map point := by
    simp only [Wheels.map, velocity_exactState]
  unfold Chassis.velocity
  rw [hvectors, solve_chassisOf]
  rfl

/-- A chassis that could be built explains any states of its wheels, also such that
contradict each other, by the one velocity in the robot frame that has the smallest sum
of squared errors. It depends linearly on the velocities of the wheels, and it is found
again from any states with just the velocities that it implies. -/
theorem velocity_leastSquares {offsets : Wheels (Vec2 Exact)} {c : Chassis Exact}
    (hbuild : Chassis.build offsets = .ok c) :
    ∃ (positions : Wheels ℂ) (fit : Wheels ℂ → Fin 3 → ℝ), offsets = positions.map point ∧
      (∀ states : Wheels (WheelState ℝ), c.velocity (states.map exactState)
        = let v := fit (states.map stateVector)
          ⟨real (v 0), real (v 1), real (v 2), .robot⟩) ∧
      (∀ wheels v, v ≠ fit wheels → misfit positions wheels (fit wheels) < misfit positions wheels v) ∧
      (∀ (a b : ℝ) wheels wheels', fit (wheels.zipWith (fun z z' => a * z + b * z') wheels')
        = a • fit wheels + b • fit wheels') ∧
      ∀ states states' : Wheels (WheelState ℝ),
        states'.map stateVector = positions.map (wheelVector · (fit (states.map stateVector))) →
        c.velocity (states'.map exactState) = c.velocity (states.map exactState) := by
  obtain ⟨hfinite, hdistinct, -⟩ := Chassis.build_eq_ok hbuild
  have hreal : ∀ o ∈ offsets.toList, o.isFinite = true := by
    simpa [Chassis.nonFiniteOffset?] using hfinite
  obtain ⟨positions, rfl⟩ := exists_wheels_point hreal
  have happart : Apart positions := coincidingOffsets?_point.mp hdistinct
  obtain rfl : chassisOf positions = c := Except.ok.inj ((build_point happart).symm.trans hbuild)
  refine ⟨positions, bestFit positions, rfl, velocity_chassisOf,
    fun wheels v => misfit_bestFit_lt wheels happart, bestFit_combination, ?_⟩
  intro states states' himplied
  rw [velocity_chassisOf, velocity_chassisOf, himplied, bestFit_rolling _ happart]

/-- Two wheels that pull against each other leave the chassis at rest. -/
theorem velocity_leastSquares_pulling :
    ∃ c, Chassis.build (scattered.map point) = .ok c ∧
      c.velocity (Wheels.map exactState ⟨⟨0, 0⟩, ⟨1, 0⟩, ⟨-1, 0⟩, ⟨0, 0⟩⟩) = .zero .robot := by
  have hbuild := build_point apart_scattered
  obtain ⟨positions, fit, hpositions, hvelocity, hleast, -⟩ := velocity_leastSquares hbuild
  refine ⟨_, hbuild, ?_⟩
  obtain rfl : scattered = positions := map_point_injective hpositions
  have hvectors : Wheels.map stateVector ⟨⟨0, 0⟩, ⟨1, 0⟩, ⟨-1, 0⟩, ⟨0, 0⟩⟩ = ⟨0, 1, -1, 0⟩ := by
    simp [Wheels.map, stateVector]
  have herrors : ∀ v, misfit scattered ⟨0, 1, -1, 0⟩ v = 2 + (3 * v 0 ^ 2 + 2 * v 1 ^ 2
      + (v 0 - v 2) ^ 2 + (v 1 + v 2) ^ 2 + (v 1 + 3 * v 2) ^ 2) := by
    intro v
    simp only [misfit, scattered, wheelVector_eq, Wheels.zipWith, Wheels.toList, Complex.sq_norm,
      normSq_apply, List.sum_cons, List.sum_nil, sub_re, sub_im, neg_re, neg_im, zero_re, zero_im,
      one_re, one_im, I_re, I_im, re_ofNat, im_ofNat]
    ring
  have hrest : ∀ v, misfit scattered ⟨0, 1, -1, 0⟩ 0 ≤ misfit scattered ⟨0, 1, -1, 0⟩ v := by
    intro v
    have hzero : misfit scattered ⟨0, 1, -1, 0⟩ 0 = 2 := by simp [herrors]
    rw [hzero, herrors v]
    exact le_add_of_nonneg_right (by positivity)
  have hfit : 0 = fit ⟨0, 1, -1, 0⟩ := by
    by_contra hne
    exact absurd (hleast _ _ hne) (not_lt.mpr (hrest _))
  rw [hvelocity, hvectors, ← hfit]
  rfl

end SwerveLocalization.Exact
