import Mathlib
import SwerveLocalization.Proofs.Exact.BestFit
import SwerveLocalization.Proofs.Exact.SteadyMotion

/-!
# Limiting the speed of the wheels

A wheel that cannot turn as fast as asked must not be slowed down alone, or the chassis
moves elsewhere. Main statement: without rounding a limit slows all wheels down by one
factor, no more than the fastest wheel needs, so the chassis moves slower in the same
direction. Limits combine as if only the lowest had been applied.
-/

namespace SwerveLocalization.Exact

open Scalar

/-! ## The factor -/

/-- The factor by which a limit slows wheels down of which the fastest has the speed `top`. -/
noncomputable def slowdown (limit top : ℝ) : ℝ := if limit < top then limit / top else 1

section Factor

variable {a b limit : ℝ} (top : ℝ)

theorem slowdown_nonneg (hlimit : 0 ≤ limit) : 0 ≤ slowdown limit top := by
  unfold slowdown
  split_ifs with h
  · exact div_nonneg hlimit (hlimit.trans h.le)
  · exact zero_le_one

theorem slowdown_le_one (hlimit : 0 ≤ limit) : slowdown limit top ≤ 1 := by
  unfold slowdown
  split_ifs with h
  · exact div_le_one_of_le₀ h.le (hlimit.trans h.le)
  · exact le_rfl

/-- The fastest wheel is slowed down to the limit. -/
theorem slowdown_mul (hlimit : 0 ≤ limit) : slowdown limit top * top = min limit top := by
  unfold slowdown
  split_ifs with h
  · rw [div_mul_cancel₀ _ (hlimit.trans_lt h).ne', min_eq_left h.le]
  · rw [one_mul, min_eq_right (not_lt.mp h)]

theorem slowdown_eq_one_iff (hlimit : 0 ≤ limit) : slowdown limit top = 1 ↔ top ≤ limit := by
  constructor
  · intro hone
    rw [← min_eq_right_iff, ← slowdown_mul top hlimit, hone, one_mul]
  · intro hle
    exact if_neg hle.not_gt

/-- A second limit slows the wheels down further only if it is lower. -/
theorem slowdown_slowdown (ha : 0 ≤ a) (hb : 0 ≤ b) :
    slowdown b (min a top) * slowdown a top = slowdown (min a b) top := by
  rcases lt_or_ge a top with hat | hta
  · have hfirst : slowdown a top = a / top := if_pos hat
    rw [min_eq_left hat.le, hfirst]
    rcases lt_or_ge b a with hba | hab
    · have hsecond : slowdown b a = b / a := if_pos hba
      rw [hsecond, min_eq_right hba.le, div_mul_div_cancel₀ (hb.trans_lt hba).ne']
      exact (if_pos (hba.trans hat)).symm
    · rw [(slowdown_eq_one_iff a hb).mpr hab, one_mul, min_eq_left hab, hfirst]
  · rw [min_eq_right hta, (slowdown_eq_one_iff top ha).mpr hta, mul_one]
    rcases lt_or_ge b a with hba | hab
    · rw [min_eq_right hba.le]
    · rw [min_eq_left hab, (slowdown_eq_one_iff top ha).mpr hta]
      exact (slowdown_eq_one_iff top hb).mpr (hta.trans hab)

end Factor

/-! ## The fastest wheel -/

/-- The speed of the fastest wheel, regardless of its sign. -/
noncomputable def fastest (states : Wheels (WheelState ℝ)) : ℝ :=
  states.toList.foldl (fun top s => max top |s.speed|) 0

/-- A state with `k` times the speed. -/
def scaledState (k : ℝ) (s : WheelState ℝ) : WheelState ℝ := ⟨k * s.speed, s.angle⟩

variable {states : Wheels (WheelState ℝ)} {limit k : ℝ}

theorem fastest_le_iff :
    fastest states ≤ limit ↔ ∀ s ∈ states.toList, |s.speed| ≤ limit := by
  simp [fastest, Wheels.toList, and_assoc]

theorem le_fastest {s : WheelState ℝ} (hs : s ∈ states.toList) : |s.speed| ≤ fastest states :=
  fastest_le_iff.mp le_rfl s hs

/-- A wheel that is as fast as every other is as fast as the fastest. -/
theorem fastest_eq {s : WheelState ℝ} (hs : s ∈ states.toList)
    (hleads : ∀ t ∈ states.toList, |t.speed| ≤ |s.speed|) : fastest states = |s.speed| :=
  le_antisymm (fastest_le_iff.mpr hleads) (le_fastest hs)

theorem fastest_scaledState (hk : 0 ≤ k) :
    fastest (states.map (scaledState k)) = k * fastest states := by
  simp only [fastest, Wheels.map, Wheels.toList, scaledState, List.foldl_cons, List.foldl_nil,
    abs_mul, abs_of_nonneg hk, mul_max_of_nonneg _ _ hk, mul_zero]

theorem topSpeed_exactState : (states.map exactState).topSpeed = real (fastest states) := by
  simp [Wheels.topSpeed, fastest, Wheels.map, Wheels.toList, exactState]

theorem map_scaledState_scaledState (k l : ℝ) :
    (states.map (scaledState k)).map (scaledState l) = states.map (scaledState (l * k)) := by
  simp [Wheels.map, scaledState, mul_assoc]

/-- A limit scales the speeds by the factor that the fastest wheel asks for. -/
theorem limitSpeed_exactState (states : Wheels (WheelState ℝ)) (hlimit : 0 ≤ limit) :
    (states.map exactState).limitSpeed (real limit)
      = (states.map (scaledState (slowdown limit (fastest states)))).map exactState := by
  unfold Wheels.limitSpeed
  rw [topSpeed_exactState, zero_eq]
  by_cases h : limit < fastest states
  · have hpos : 0 < fastest states := hlimit.trans_lt h
    have hfactor : slowdown limit (fastest states) = limit / fastest states := if_pos h
    rw [if_pos ⟨(real_lt_real _ _).mpr h, (real_lt_real _ _).mpr hpos⟩, real_div_real _ _ hpos.ne',
      hfactor]
    simp [Wheels.map, exactState, scaledState, mul_comm]
  · rw [if_neg fun hcond => h ((real_lt_real _ _).mp hcond.1),
      (slowdown_eq_one_iff _ hlimit).mpr (not_lt.mp h)]
    simp [Wheels.map, scaledState]

theorem limitSpeed_limitSpeed (states : Wheels (WheelState ℝ)) {a b : ℝ} (ha : 0 ≤ a) (hb : 0 ≤ b) :
    ((states.map exactState).limitSpeed (real a)).limitSpeed (real b)
      = (states.map exactState).limitSpeed (real (min a b)) := by
  rw [limitSpeed_exactState _ ha, limitSpeed_exactState _ hb,
    limitSpeed_exactState _ (le_min ha hb), fastest_scaledState (slowdown_nonneg _ ha),
    slowdown_mul _ ha, map_scaledState_scaledState, slowdown_slowdown _ ha hb]

/-! ## The motion of the chassis -/

/-- A chassis whose wheels all turn `k` times as fast moves `k` times as fast. -/
theorem velocity_scaledState {offsets : Wheels (Vec2 Exact)} {c : Chassis Exact}
    (hbuild : Chassis.build offsets = .ok c) (k : ℝ) :
    c.velocity ((states.map (scaledState k)).map exactState)
      = let v := c.velocity (states.map exactState)
        ⟨v.vx * real k, v.vy * real k, v.omega * real k, v.frame⟩ := by
  have hwheel : ∀ s,
      (exactState (scaledState k s)).velocity = (exactState s).velocity.scale (real k) := by
    intro s
    rw [velocity_exactState, velocity_exactState, scale_point]
    congr 1
    simp only [stateVector, scaledState, Complex.ofReal_mul]
    ring
  have hwheels : ((states.map (scaledState k)).map exactState).map WheelState.velocity
      = ((states.map exactState).map WheelState.velocity).map fun v => v.scale (real k) := by
    simp only [Wheels.map, hwheel]
  have hfinite : ∀ v ∈ ((states.map exactState).map WheelState.velocity).toList,
      v.isFinite = true := by
    intro v hv
    simp only [Wheels.toList_map, List.map_map, List.mem_map] at hv
    obtain ⟨s, -, rfl⟩ := hv
    rfl
  unfold Chassis.velocity
  rw [hwheels, (multiple_solve (realChassis_build hbuild) hfinite k).eq_scale]
  rfl

/-- A limit scales all speeds by one factor and keeps the angles. The factor is one exactly if
no wheel is too fast, and otherwise takes the fastest wheels to the limit. A chassis with these
wheels moves by the same factor slower. A limit applied again changes nothing, and two limits
are as good as the lower of them. -/
theorem limitSpeed_scales (states : Wheels (WheelState ℝ)) {limit : ℝ} (hlimit : 0 ≤ limit) :
    let asked := states.map exactState
    let limited := asked.limitSpeed (real limit)
    (∃ s : ℝ, 0 ≤ s ∧ s ≤ 1 ∧
      limited = states.map (fun w => ⟨real (s * w.speed), real w.angle⟩) ∧
      (∀ w ∈ states.toList, |s * w.speed| ≤ limit) ∧
      (s = 1 ↔ ∀ w ∈ states.toList, |w.speed| ≤ limit) ∧
      (¬ s = 1 → ∀ w ∈ states.toList, (∀ v ∈ states.toList, |v.speed| ≤ |w.speed|) →
        |s * w.speed| = limit) ∧
      ∀ offsets c, Chassis.build offsets = .ok c →
        c.velocity limited = let v := c.velocity asked
          ⟨v.vx * real s, v.vy * real s, v.omega * real s, v.frame⟩) ∧
    limited.limitSpeed (real limit) = limited ∧
    ∀ other : ℝ, 0 ≤ other →
      limited.limitSpeed (real other) = asked.limitSpeed (real (min limit other)) := by
  intro asked limited
  obtain ⟨s, hs⟩ : ∃ s, slowdown limit (fastest states) = s := ⟨_, rfl⟩
  have hlimited := limitSpeed_exactState states hlimit
  have hnonneg := slowdown_nonneg (fastest states) hlimit
  have hle := slowdown_le_one (fastest states) hlimit
  have hone := slowdown_eq_one_iff (fastest states) hlimit
  have hreached := slowdown_mul (fastest states) hlimit
  rw [hs] at hlimited hnonneg hle hone hreached
  refine ⟨⟨s, hnonneg, hle, hlimited, ?_, hone.trans fastest_le_iff, ?_, ?_⟩, ?_,
    fun other hother => limitSpeed_limitSpeed states hlimit hother⟩
  · intro w hw
    calc |s * w.speed| = s * |w.speed| := by rw [abs_mul, abs_of_nonneg hnonneg]
      _ ≤ s * fastest states := mul_le_mul_of_nonneg_left (le_fastest hw) hnonneg
      _ ≤ limit := hreached.trans_le (min_le_left _ _)
  · intro hslower w hw hleads
    have hfast : ¬ fastest states ≤ limit := mt hone.mpr hslower
    calc |s * w.speed| = s * |w.speed| := by rw [abs_mul, abs_of_nonneg hnonneg]
      _ = s * fastest states := by rw [fastest_eq hw hleads]
      _ = limit := by rw [hreached, min_eq_left (not_le.mp hfast).le]
  · intro offsets c hbuild
    rw [show limited = _ from hlimited]
    exact velocity_scaledState hbuild s
  · have htwice := limitSpeed_limitSpeed states hlimit hlimit
    rw [min_self] at htwice
    exact htwice

/-- Of four wheels the fastest turns backward and twice as fast as allowed. -/
theorem limitSpeed_scales_halved :
    let states : Wheels (WheelState ℝ) := ⟨⟨3, 0⟩, ⟨-4, 1⟩, ⟨0, 2⟩, ⟨1, 3⟩⟩
    let limited := (states.map exactState).limitSpeed (real 2)
    limited = ⟨⟨real (1 / 2 * 3), real 0⟩, ⟨real (1 / 2 * -4), real 1⟩, ⟨real (1 / 2 * 0), real 2⟩,
        ⟨real (1 / 2 * 1), real 3⟩⟩ ∧
      limited.limitSpeed (real 3) = limited ∧
      ∃ c, Chassis.build (scattered.map point) = .ok c ∧
        (c.velocity limited).omega = (c.velocity (states.map exactState)).omega * real (1 / 2) := by
  intro states limited
  have hbuild := build_point apart_scattered
  obtain ⟨⟨s, hnonneg, -, hlimited, -, hone, hfastest, hvelocity⟩, -, hlower⟩ :=
    limitSpeed_scales states zero_le_two
  have hslower : ¬ s = 1 := by
    rw [hone]
    intro hslow
    have hfast := hslow ⟨-4, 1⟩ (by simp [states, Wheels.toList])
    norm_num at hfast
  have hleads : ∀ v ∈ states.toList, |v.speed| ≤ |(-4 : ℝ)| := by
    simp [states, Wheels.toList]
    norm_num
  have hreached := hfastest hslower ⟨-4, 1⟩ (by simp [states, Wheels.toList]) hleads
  obtain rfl : s = 1 / 2 := by
    rw [abs_mul, abs_of_nonneg hnonneg] at hreached
    norm_num at hreached
    linarith
  refine ⟨hlimited, ?_, _, hbuild, congrArg ChassisVelocity.omega (hvelocity _ _ hbuild)⟩
  rw [hlower 3 (by norm_num), min_eq_left (by norm_num)]

end SwerveLocalization.Exact
