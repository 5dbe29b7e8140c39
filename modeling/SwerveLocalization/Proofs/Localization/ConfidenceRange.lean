import Mathlib
import SwerveLocalization.Proofs.Binary64.Library
import SwerveLocalization.Proofs.Binary64.Monotone
import SwerveLocalization.Proofs.Chassis.FiniteShares
import SwerveLocalization.Proofs.Exact.Confidence

/-!
# The range of the confidence

The confidence is the exponential of an age that is not negative, divided by a
positive time constant and taken with the opposite sign. Main statement: in binary64,
whatever has been taken in and whatever the clock shows, it lies between zero and one,
and it is no number only where both are infinite. Settings with an infinite time
constant are accepted, and an age is infinite if the clock is, or if it is too large.
All that this needs of the exponential is that it lies between zero and one up to zero
and does not hide NaN.
-/

namespace SwerveLocalization

open Binary64

namespace MathLibrary

/-- An exponential that lies between zero and one up to zero, and is NaN at NaN. -/
structure Fading (f : MathLibrary) : Prop where
  range : ∀ x : Float, x ≤ 0 → 0 ≤ f.exp x ∧ f.exp x ≤ 1
  nan : ∀ x : Float, x.isNaN = true → (f.exp x).isNaN = true

noncomputable instance (f : MathLibrary) : RealScalar f.Number :=
  { (inferInstance : RealScalar Float) with }

end MathLibrary

variable {f : MathLibrary}

/-- A number between zero and one, or NaN if there is an obstacle. -/
structure RatedUnless (obstacle : Prop) (x : f.Number) : Prop where
  range : 0 ≤ x ∧ x ≤ 1 ↔ ¬ obstacle
  nan : Scalar.isNaN x = true ↔ obstacle

theorem ratedUnless_of_range {obstacle : Prop} {x : f.Number} (h : 0 ≤ x ∧ x ≤ 1)
    (hnone : ¬ obstacle) : RatedUnless obstacle x := by
  have hnan : Scalar.isNaN x = false := (zero_le_iff.mp h.1).1
  exact ⟨iff_of_true h hnone, iff_of_false (by rw [hnan]; decide) hnone⟩

theorem ratedUnless_of_isNaN {obstacle : Prop} {x : f.Number} (h : Scalar.isNaN x = true)
    (hsome : obstacle) : RatedUnless obstacle x := by
  refine ⟨iff_of_false ?_ (not_not.mpr hsome), iff_of_true h hsome⟩
  rintro ⟨hnonneg, -⟩
  have hnan : Scalar.isNaN x = false := (zero_le_iff.mp hnonneg).1
  rw [hnan] at h
  contradiction

theorem ratedUnless_zero {obstacle : Prop} (hnone : ¬ obstacle) :
    RatedUnless obstacle (0 : f.Number) := by
  have hrange : (0 : Float) ≤ 0 ∧ (0 : Float) ≤ 1 := by decide +kernel
  exact ratedUnless_of_range hrange hnone

/-! ## Estimators -/

namespace Estimator

variable {e start : Estimator f.Number} {chassis : Chassis f.Number} {pose : Pose f.Number}
  {settings : EstimatorSettings f.Number}

/-- Whether the latest camera pose is infinitely old when the clock shows `now`. So it is if the
clock stands at infinity, but also if the difference overflows. -/
def InfinitelyOld (e : Estimator f.Number) (now : f.Number) : Prop :=
  ∃ last, e.lastVision = some last ∧ Scalar.infinity ≤ now - last

theorem confidence_ratedUnless (hf : f.Fading) (hpos : 0 < e.settings.timeConstant)
    (now : f.Number) :
    RatedUnless (Scalar.infinity ≤ e.settings.timeConstant ∧ e.InfinitelyOld now)
      (e.confidence now) := by
  unfold confidence InfinitelyOld
  cases e.lastVision with
  | none => exact ratedUnless_zero (by rintro ⟨-, last, hlast, -⟩; contradiction)
  | some last =>
    obtain ⟨hnonneg, hage⟩ := larger_zero_cases (now - last)
    by_cases h : Scalar.infinity ≤ e.settings.timeConstant ∧ Scalar.infinity ≤ now - last
    · refine ratedUnless_of_isNaN (hf.nan _ ?_) ⟨h.1, last, rfl, h.2⟩
      exact isNaN_neg_div (hage.mpr h.2) h.1
    · -- raising the age to zero has taken away NaN and all that is negative
      refine ratedUnless_of_range (hf.range _ ?_) ?_
      · exact neg_div_nonpos hnonneg hpos (mt (And.imp_right hage.mp) h)
      · rintro ⟨hconstant, last', hlast, hold⟩
        cases hlast
        exact h ⟨hconstant, hold⟩

/-- What an estimator takes in does not change its settings, and they were accepted. -/
theorem settings_takeEach (hbuild : build chassis pose settings = .ok start)
    (intakes : List (Intake f.Number)) :
    (start.takeEach intakes).2.settings = settings ∧ 0 < settings.timeConstant :=
  ⟨((dated_build hbuild).takeEach intakes).settings_eq, (build_eq_ok hbuild).2.2.1⟩

theorem confidence_takeEach_ratedUnless (hf : f.Fading)
    (hbuild : build chassis pose settings = .ok start) (intakes : List (Intake f.Number))
    (now : f.Number) :
    RatedUnless (Scalar.infinity ≤ settings.timeConstant ∧
      (start.takeEach intakes).2.InfinitelyOld now) ((start.takeEach intakes).2.confidence now) := by
  obtain ⟨hsettings, hpos⟩ := settings_takeEach hbuild intakes
  rw [← hsettings] at hpos ⊢
  exact confidence_ratedUnless hf hpos now

end Estimator

/-! ## Robots -/

theorem Robot.build_eq_ok {α : Type} [Scalar α] {parts : RobotParts α} {r : Robot α}
    (h : build parts = .ok r) :
    ∃ chassis, Estimator.build chassis parts.pose parts.settings = .ok r.estimator := by
  unfold build at h
  split at h
  · contradiction
  · split at h
    · contradiction
    · split at h
      · contradiction
      · rename_i hbuild
        cases h
        exact ⟨_, hbuild⟩

/-- With any exponential that fades, from any settings that are accepted and after anything that
has been taken in, the confidence lies between zero and one whatever the clock shows, unless the
time constant and the age of the latest camera pose are both infinite; then it is NaN. So it is
for the confidence of a robot as of its last cycle. -/
theorem confidence_range (hf : f.Fading) :
    (∀ chassis pose settings start,
      Estimator.build (α := f.Number) chassis pose settings = .ok start → ∀ intakes now,
      let e := (start.takeEach intakes).2
      RatedUnless (Scalar.infinity ≤ settings.timeConstant ∧ e.InfinitelyOld now)
        (e.confidence now)) ∧
    ∀ (parts : RobotParts f.Number) robot, Robot.build parts = .ok robot → ∀ commands,
      let r := ((Session.start robot).run commands).2.robot
      RatedUnless (Scalar.infinity ≤ parts.settings.timeConstant ∧
        ∃ now, r.lastCycle = some now ∧ r.estimator.InfinitelyOld now) r.confidence := by
  refine ⟨fun _ _ _ _ => Estimator.confidence_takeEach_ratedUnless hf, ?_⟩
  intro parts robot hbuild commands r
  obtain ⟨chassis, hestimator⟩ := Robot.build_eq_ok hbuild
  obtain ⟨intakes, hintakes⟩ : ∃ intakes, r.estimator = (robot.estimator.takeEach intakes).2 :=
    (Session.start robot).exists_intakes_run commands
  unfold Robot.confidence
  cases r.lastCycle with
  | none => exact ratedUnless_zero (by rintro ⟨-, now, hnow, -⟩; contradiction)
  | some now =>
    have hrated := Estimator.confidence_takeEach_ratedUnless hf hestimator intakes now
    rw [← hintakes] at hrated
    simpa using hrated

namespace MathLibrary

/-- A library whose exponential is looked up at zero and at `-1` and is zero elsewhere. -/
def decaying : MathLibrary :=
  { tabulated with
    exp := fun x =>
      if x.isNaN then x else if x == 0 then 1 else if x == -1 then 0.36787944117144233 else 0 }

theorem exp_decaying (x : Float) : decaying.exp x =
    if x.isNaN then x else if x == 0 then 1 else if x == -1 then 0.36787944117144233 else 0 := rfl

theorem fading_decaying : decaying.Fading := by
  constructor
  · intro x hx
    have hnan := ((le_iff x 0).mp hx).1
    rw [exp_decaying, hnan, if_neg Bool.false_ne_true]
    split_ifs <;> decide +kernel
  · intro x hx
    rw [exp_decaying, if_pos hx]
    exact hx

end MathLibrary

open MathLibrary (decaying)

/-- An estimator on a square chassis that has seen nothing yet. -/
def unsighted (timeConstant : decaying.Number) : Estimator decaying.Number :=
  { Estimator.fresh .square .origin with settings := ⟨300, 2.0, timeConstant⟩ }

theorem build_square_decaying :
    Chassis.build (Chassis.rectangle (1 : decaying.Number) 1) = .ok .square :=
  (Chassis.build_number decaying _).trans Chassis.build_square

theorem build_unsighted (timeConstant : decaying.Number) (h : 0 < timeConstant) :
    Estimator.build .square .origin ⟨300, 2.0, timeConstant⟩ = .ok (unsighted timeConstant) := by
  have hwindow : (0 : decaying.Number) < 2.0 := by decide +kernel
  have hcapacity : 2 ≤ 300 := by decide
  exact Estimator.build_of_bounds hcapacity hwindow h .square .origin

/-- A wheel reading at rest and a camera pose, both of one time. -/
def sightedAt (time : decaying.Number) : List (Estimator.Intake decaying.Number) :=
  [.command (.drive ⟨time, ⟨0, .replicate ⟨0, 0⟩⟩⟩), .command (.vision ⟨.origin, time, ⟨1, 1, 1⟩⟩)]

/-- The parts of a robot with the standard settings. -/
def standardParts : RobotParts decaying.Number :=
  ⟨Chassis.rectangle 1 1, .origin, .standard, .standard, .standard, .standard, .blue⟩

/-- A camera pose seen on a clock one time constant later and on one that stands at infinity, and
a robot that has not seen any. -/
theorem confidence_range_clocks :
    let e := ((unsighted 1).takeEach (sightedAt 1)).2
    Chassis.build (Chassis.rectangle 1 1) = .ok (unsighted 1).reckoner.chassis ∧
      (e.confidence 2.0 == (0.36787944117144233 : Float)) = true ∧
      (0 ≤ e.confidence Scalar.infinity ∧ e.confidence Scalar.infinity ≤ 1) ∧
      ∃ robot, Robot.build standardParts = .ok robot ∧
        let r := ((Session.start robot).run [.cycle 2.0 ⟨[], .replicate .rest⟩]).2.robot
        0 ≤ r.confidence ∧ r.confidence ≤ 1 := by
  intro e
  have hconf : (e.confidence 2.0 == (0.36787944117144233 : Float)) = true := by decide +kernel
  obtain ⟨hestimator, hrobot⟩ := confidence_range MathLibrary.fading_decaying
  have hfinite : ¬ Scalar.infinity ≤ (1 : decaying.Number) := by decide +kernel
  refine ⟨build_square_decaying, hconf, ?_, ?_⟩
  · have hbuild := build_unsighted 1 (by decide +kernel)
    exact (hestimator _ _ _ _ hbuild (sightedAt 1) Scalar.infinity).range.mpr fun h => hfinite h.1
  · have hsome : (Robot.build standardParts).toOption.isSome = true := by decide +kernel
    cases hbuild : Robot.build standardParts with
    | error fault =>
      rw [hbuild] at hsome
      contradiction
    | ok robot =>
      exact ⟨robot, rfl, (hrobot _ robot hbuild _).range.mpr fun h => hfinite h.1⟩

/-- A camera pose and a clock so far apart that their difference overflows. -/
theorem isNaN_confidence_infiniteAge :
    let run := (unsighted Scalar.infinity).takeEach (sightedAt (-1e308 : Float))
    Chassis.build (Chassis.rectangle 1 1) = .ok (unsighted Scalar.infinity).reckoner.chassis ∧
      run.1 = [[.accepted], [.accepted]] ∧ Scalar.isNaN (run.2.confidence (1e308 : Float)) = true ∧
      ¬ ∀ f : MathLibrary, f.Fading → ∀ chassis pose settings start,
        Estimator.build (α := f.Number) chassis pose settings = .ok start → ∀ intakes now,
        let e := (start.takeEach intakes).2
        0 ≤ e.confidence now ∧ e.confidence now ≤ 1 := by
  intro run
  have hnan : Scalar.isNaN (run.2.confidence (1e308 : Float)) = true := by decide +kernel
  have hverdicts : run.1 = [[.accepted], [.accepted]] := by decide +kernel
  refine ⟨build_square_decaying, hverdicts, hnan, ?_⟩
  intro h
  have hbuild := build_unsighted Scalar.infinity (by decide +kernel)
  have hrange := h decaying MathLibrary.fading_decaying _ _ _ _ hbuild (sightedAt (-1e308 : Float))
    (1e308 : Float)
  have hnumber : Scalar.isNaN (run.2.confidence (1e308 : Float)) = false :=
    (zero_le_iff.mp hrange.1).1
  exact Bool.noConfusion (hnan.symm.trans hnumber)

end SwerveLocalization
