import Mathlib
import SwerveLocalization.Proofs.Exact.LeastSquares

/-!
# From a chassis velocity to the wheels and back

The wheels of a rigid chassis move consistently, so the least-squares solution of
their velocities is the velocity of the chassis itself. Main statement: without
rounding the wheel states for a velocity give this velocity back, whatever the
frame it is given in and wherever the wheels are mounted, unless a wheel moves so
slowly that it is taken to be at rest.
-/

namespace SwerveLocalization.Exact

open Matrix Complex

/-! ## Consistent wheels -/

/-- The velocities of the wheels of a chassis that moves with `v`. -/
def rolling (offsets : Wheels ℂ) (v : Fin 3 → ℝ) : Wheels ℂ :=
  offsets.map fun o => ⟨along o ⬝ᵥ v, across o ⬝ᵥ v⟩

variable {offsets : Wheels ℂ} (v : Fin 3 → ℝ)

theorem rolling_smul (k : ℝ) : rolling offsets (k • v) = (rolling offsets v).map (· * (k : ℂ)) := by
  have hpart : ∀ x y : ℝ, (⟨k * x, k * y⟩ : ℂ) = ⟨x, y⟩ * k := by
    intro x y
    apply Complex.ext
    · rw [re_mul_ofReal]
      exact mul_comm k x
    · rw [im_mul_ofReal]
      exact mul_comm k y
  simp only [rolling, Wheels.map, dotProduct_smul, smul_eq_mul, hpart]

theorem wheelVelocity_point (o : ℂ) :
    Chassis.wheelVelocity (point o) (vec v) = point ⟨along o ⬝ᵥ v, across o ⬝ᵥ v⟩ :=
  congrArg₂ Vec2.mk (dot_vec (along o) v) (dot_vec (across o) v)

theorem moment_rolling : moment offsets (rolling offsets v) = normal offsets *ᵥ v := by
  have hsquare : ∀ u : Fin 3 → ℝ, vecMulVec u u *ᵥ v = (u ⬝ᵥ v) • u := by
    intro u
    rw [vecMulVec_mulVec]
    exact op_smul_eq_smul _ _
  simp only [moment, rolling, normal, Wheels.map, Wheels.zipWith, Wheels.toList, List.map_cons,
    List.map_nil, List.sum_cons, List.sum_nil, add_mulVec, zero_mulVec, hsquare]

/-- The velocity of the chassis is found again from the velocities of its wheels. -/
theorem solve_rolling (h : Apart offsets) :
    (chassisOf offsets).solve ((rolling offsets v).map point) = vec v := by
  have hunit : IsUnit (normal offsets).det := h.det_ne_zero.isUnit
  rw [solve_chassisOf, moment_rolling, mulVec_mulVec, nonsing_inv_mul _ hunit, one_mulVec]

/-! ## Wheel states -/

/-- A wheel that stands still or moves fast enough to be steered. -/
def Steerable (velocity : Vec2 Exact) : Prop := velocity.norm = 0 ∨ 1e-12 ≤ velocity.norm

theorem steerable_point {z : ℂ} : Steerable (point z) ↔ ‖z‖ = 0 ∨ 1e-12 ≤ ‖z‖ := by
  unfold Steerable
  rw [norm_point, zero_eq, real.injEq, show (1e-12 : Exact) = real 1e-12 from rfl, real_le_real]

/-- The state of a wheel that can be steered has its velocity. -/
theorem exists_ofVelocity {z : ℂ} (h : Steerable (point z)) :
    ∃ r θ : ℝ, WheelState.ofVelocity (point z) = ⟨real r, real θ⟩ ∧
      r * Complex.exp (θ * I) = z := by
  have hsmall : (point z).norm < (1e-12 : Exact) ↔ ‖z‖ < 1e-12 := by
    rw [norm_point, show (1e-12 : Exact) = real 1e-12 from rfl, real_lt_real]
  rcases steerable_point.mp h with hzero | hlarge
  · refine ⟨0, 0, if_pos (hsmall.mpr ?_), ?_⟩
    · rw [hzero]
      norm_num
    · rw [norm_eq_zero.mp hzero]
      simp
  · refine ⟨‖z‖, arg z, ?_, norm_mul_exp_arg_mul_I z⟩
    unfold WheelState.ofVelocity
    dsimp only
    rw [if_neg (mt hsmall.mp (not_lt.mpr hlarge)), norm_point, direction_point]

theorem velocity_ofVelocity {z : ℂ} (h : Steerable (point z)) :
    (WheelState.ofVelocity (point z)).velocity = point z := by
  obtain ⟨r, θ, hstate, hz⟩ := exists_ofVelocity h
  rw [hstate, WheelState.velocity, polar_real, hz]

/-- How far a wheel rolls in the time `dt` with its state kept. -/
noncomputable def rolledFor (dt : ℝ) (s : WheelState Exact) : WheelTravel Exact :=
  ⟨s.speed * real dt, s.angle⟩

theorem path_rolledFor {z : ℂ} (h : Steerable (point z)) (dt : ℝ) :
    (rolledFor dt (.ofVelocity (point z))).path = point (z * dt) := by
  obtain ⟨r, θ, hstate, hz⟩ := exists_ofVelocity h
  rw [hstate, rolledFor, WheelTravel.path, real_mul_real, polar_real, ← hz, ofReal_mul, mul_right_comm]

/-! ## Frames -/

/-- A chassis velocity with real components. -/
def chassisVelocity (u : ℂ) (ω : ℝ) (frame : Frame) : ChassisVelocity Exact :=
  ⟨real u.re, real u.im, real ω, frame⟩

/-- Seen from the robot a real velocity is real, and one that was given in the field
frame is found again. -/
theorem exists_toRobot (u : ℂ) (ω : ℝ) (frame : Frame) (h : ℝ) :
    ∃ u', (chassisVelocity u ω frame).toRobot (real h) = chassisVelocity u' ω .robot ∧
      (frame = .field →
        (chassisVelocity u' ω .robot).toField (real h) = chassisVelocity u ω frame) := by
  cases frame with
  | robot => exact ⟨u, rfl, nofun⟩
  | field =>
    let u' := Complex.exp ((-h : ℝ) * I) * u
    have hback : Complex.exp (h * I) * u' = u := by
      rw [← mul_assoc, ← Complex.exp_add, ofReal_neg, neg_mul, add_neg_cancel, Complex.exp_zero,
        one_mul]
    have hturned : (point u).rotate (real (-h)) = point u' := rotate_point u (-h)
    have hturned' : (point u').rotate (real h) = point u := by rw [rotate_point, hback]
    refine ⟨u', ?_, fun _ => ?_⟩
    · exact congrArg (fun w : Vec2 Exact => ChassisVelocity.mk w.x w.y (real ω) .robot) hturned
    · exact congrArg (fun w : Vec2 Exact => ChassisVelocity.mk w.x w.y (real ω) .field) hturned'

/-! ## Round trip -/

theorem wheels_map_congr {β γ : Type} {f g : β → γ} {w : Wheels β}
    (h : ∀ b ∈ w.toList, f b = g b) : w.map f = w.map g := by
  simp only [Wheels.toList, List.forall_mem_cons] at h
  simp only [Wheels.map, h]

/-- The states of the wheels for a velocity in the robot frame. -/
theorem wheelStates_chassisOf {u : ℂ} {ω : ℝ} {v : ChassisVelocity Exact} {heading : Exact}
    (hv : v.toRobot heading = chassisVelocity u ω .robot) :
    (chassisOf offsets).wheelStates v heading
      = (rolling offsets ![u.re, u.im, ω]).map fun z => .ofVelocity (point z) := by
  have hstate : ∀ o, Chassis.wheelVelocity (point o) ⟨real u.re, real u.im, real ω⟩
      = point ⟨along o ⬝ᵥ ![u.re, u.im, ω], across o ⬝ᵥ ![u.re, u.im, ω]⟩ :=
    wheelVelocity_point ![u.re, u.im, ω]
  unfold Chassis.wheelStates
  rw [hv]
  simp only [chassisVelocity, chassisOf, rolling, Wheels.map, hstate]

variable {v}

theorem velocity_of_steerable (h : Apart offsets)
    (hsteer : ∀ z ∈ (rolling offsets v).toList, Steerable (point z)) :
    (chassisOf offsets).velocity ((rolling offsets v).map fun z => .ofVelocity (point z))
      = ⟨real (v 0), real (v 1), real (v 2), .robot⟩ := by
  have hvelocity : ((rolling offsets v).map fun z => WheelState.ofVelocity (point z)).map
      WheelState.velocity = (rolling offsets v).map point :=
    wheels_map_congr fun z hz => velocity_ofVelocity (hsteer z hz)
  unfold Chassis.velocity
  rw [hvelocity, solve_rolling v h]
  rfl

theorem motion_of_steerable (h : Apart offsets)
    (hsteer : ∀ z ∈ (rolling offsets v).toList, Steerable (point z)) (dt : ℝ) :
    (chassisOf offsets).motion
        (((rolling offsets v).map fun z => .ofVelocity (point z)).map (rolledFor dt))
      = ⟨real (v 0) * real dt, real (v 1) * real dt, real (v 2) * real dt⟩ := by
  have hpaths : (((rolling offsets v).map fun z => WheelState.ofVelocity (point z)).map
      (rolledFor dt)).map WheelTravel.path = (rolling offsets (dt • v)).map point := by
    rw [rolling_smul]
    exact wheels_map_congr fun z hz => path_rolledFor (hsteer z hz) dt
  unfold Chassis.motion
  rw [hpaths, solve_rolling _ h]
  simp only [vec, Pi.smul_apply, smul_eq_mul, real_mul_real, mul_comm]

/-- A chassis whose wheels can be told apart can be built, and its normal equations are
never the reason to refuse one, for their determinant is sixteen times the sum of the
squared distances of the wheels from their middle. The states of its wheels for a
velocity, given in either frame, give the velocity in the robot frame back, and with it
the one in the field frame, unless a wheel moves but is taken to be at rest. In any time
the wheels roll by the way of the chassis in this time. -/
theorem velocity_wheelStates :
    (∀ offsets : Wheels (Vec2 Exact), Chassis.build offsets ≠ .error .singularOffsets) ∧
    ∀ offsets : Wheels ℂ, Apart offsets →
      (Chassis.normalMatrix (offsets.map point)).det = real (16 * spread offsets) ∧
      ∃ c, Chassis.build (offsets.map point) = .ok c ∧
        ∀ u ω frame h,
          let v := chassisVelocity u ω frame
          let r := v.toRobot (real h)
          let states := c.wheelStates v (real h)
          (∀ o ∈ offsets.toList,
            Steerable (Chassis.wheelVelocity (point o) ⟨r.vx, r.vy, r.omega⟩)) →
          c.velocity states = r ∧
          (frame = .field → (c.velocity states).toField (real h) = v) ∧
          ∀ dt, c.motion (states.map (rolledFor dt))
            = ⟨r.vx * real dt, r.vy * real dt, r.omega * real dt⟩ := by
  refine ⟨build_ne_singular, fun offsets hoffsets => ?_⟩
  refine ⟨?_, chassisOf offsets, build_point hoffsets, ?_⟩
  · rw [normalMatrix_point, det_mat, det_normal]
  · intro u ω frame h v r states hsteer
    obtain ⟨u', htoRobot, hback⟩ := exists_toRobot u ω frame h
    have hr : r = chassisVelocity u' ω .robot := htoRobot
    have hstates : states = _ := wheelStates_chassisOf htoRobot
    have hrolling : ∀ z ∈ (rolling offsets ![u'.re, u'.im, ω]).toList, Steerable (point z) := by
      intro z hz
      rw [rolling, Wheels.toList_map, List.mem_map] at hz
      obtain ⟨o, ho, rfl⟩ := hz
      have hwheel := hsteer o ho
      rw [hr] at hwheel
      rw [← wheelVelocity_point]
      exact hwheel
    have hvelocity : (chassisOf offsets).velocity states = r := by
      rw [hstates, hr]
      exact velocity_of_steerable hoffsets hrolling
    refine ⟨hvelocity, ?_, ?_⟩
    · intro hframe
      rw [hvelocity, hr]
      exact hback hframe
    · intro dt
      rw [hstates, hr]
      exact motion_of_steerable hoffsets hrolling dt

/-- A robot that turns about one of its wheels, and drives to the left of the field
because it looks there. -/
theorem velocity_wheelStates_pivoting :
    let v := chassisVelocity I 1 .field
    let heading := real (Real.pi / 2)
    ∃ c, Chassis.build (scattered.map point) = .ok c ∧
      c.velocity (c.wheelStates v heading) = chassisVelocity 1 1 .robot ∧
      (c.velocity (c.wheelStates v heading)).toField heading = v ∧
      c.motion ((c.wheelStates v heading).map (rolledFor 2)) = ⟨real 2, real 0, real 2⟩ := by
  intro v heading
  have hr : v.toRobot heading = chassisVelocity 1 1 .robot := by
    simp [v, heading, chassisVelocity, ChassisVelocity.toRobot, ChassisVelocity.linear, Vec2.rotate,
      Scalar.sin, Scalar.cos, lift]
  have hsteer : ∀ o ∈ scattered.toList,
      Steerable (Chassis.wheelVelocity (point o) (vec ![(1 : ℂ).re, (1 : ℂ).im, 1])) := by
    intro o ho
    rw [wheelVelocity_point, steerable_point]
    -- the first wheel stands still, and the others move forward at least as fast as the middle
    simp only [scattered, Wheels.toList, List.mem_cons, List.not_mem_nil, or_false] at ho
    rcases ho with rfl | ho
    · left
      simp [along, across, Complex.ext_iff]
    · right
      refine le_trans ?_ (abs_re_le_norm _)
      rcases ho with rfl | rfl | rfl <;> simp [along] <;> norm_num
  obtain ⟨-, c, hc, hround⟩ := velocity_wheelStates.2 scattered apart_scattered
  obtain ⟨hvelocity, hfield, hmotion⟩ := hround I 1 .field (Real.pi / 2) (by
    show ∀ o ∈ scattered.toList, Steerable (Chassis.wheelVelocity (point o)
      ⟨(v.toRobot heading).vx, (v.toRobot heading).vy, (v.toRobot heading).omega⟩)
    rw [hr]
    exact hsteer)
  refine ⟨c, hc, hvelocity.trans hr, hfield rfl, (hmotion 2).trans ?_⟩
  show Twist.mk ((v.toRobot heading).vx * _) ((v.toRobot heading).vy * _)
    ((v.toRobot heading).omega * _) = _
  rw [hr]
  simp [chassisVelocity]

end SwerveLocalization.Exact
