import Mathlib
import SwerveLocalization.Proofs.Localization.Counting
import SwerveLocalization.Robot.Session

/-!
# All that an estimator takes in

On a robot not every rejection is the estimator's own: a sighting that the gate
turns away is counted by the estimator too. Here a run is made of both. Main
statement: whatever happens in a session, the estimator of the robot goes through
such a run, so what holds of all of them holds on every robot.
-/

namespace SwerveLocalization

namespace Estimator

variable {α : Type} [Scalar α]

/-- One thing that happens to an estimator, alone or on a robot. -/
inductive Intake (α : Type)
  /-- The estimator is given a command. -/
  | command (c : Command α)
  /-- A gate turns a sighting away. -/
  | turnedAway (reason : Rejection)

/-- Takes in one thing. -/
def take (e : Estimator α) : Intake α → List Verdict × Estimator α
  | .command c => e.perform c
  | .turnedAway r => ([.rejected r], e.recordRejection r)

/-- Takes in one thing after the other. -/
def takeEach (e : Estimator α) : List (Intake α) → List (List Verdict) × Estimator α
  | [] => ([], e)
  | i :: rest =>
    let (verdicts, after) := e.take i
    let (others, last) := after.takeEach rest
    (verdicts :: others, last)

@[simp] theorem takeEach_nil (e : Estimator α) : e.takeEach [] = ([], e) := rfl

@[simp] theorem takeEach_cons (e : Estimator α) (i : Intake α) (rest : List (Intake α)) :
    e.takeEach (i :: rest)
      = ((e.take i).1 :: ((e.take i).2.takeEach rest).1, ((e.take i).2.takeEach rest).2) := rfl

/-- What an estimator has taken in may be cut into two. -/
theorem takeEach_append (e : Estimator α) (first second : List (Intake α)) :
    e.takeEach (first ++ second)
      = ((e.takeEach first).1 ++ ((e.takeEach first).2.takeEach second).1,
          ((e.takeEach first).2.takeEach second).2) := by
  induction first generalizing e with
  | nil => rfl
  | cons i rest ih => simp [ih]

/-! ## Counters -/

/-- The counters that are advanced by what was taken in with these verdicts. -/
def advancedBy : Intake α × List Verdict → List Counter
  | (.command c, verdicts) => countedBy (c, verdicts)
  | (.turnedAway r, _) => [.rejected r]

theorem advanced_take (e : Estimator α) (i : Intake α) :
    Tally.Advanced (advancedBy (i, (e.take i).1)) e.tally (e.take i).2.tally := by
  cases i with
  | command c => exact advanced_perform e c
  | turnedAway r => exact Tally.advanced_countRejection e.tally r

end Estimator

/-! ## Robots -/

namespace Robot

open Estimator

variable {α : Type} [Scalar α] (g : GateSettings α) (f : Field α)

/-- What a sighting is to the estimator behind a gate. -/
def behindGate (s : Sighting α) : Intake α :=
  match g.evaluate f s with
  | .ok m => .command (.vision m)
  | .error r => .turnedAway r

theorem addSighting_eq_take (e : Estimator α) (s : Sighting α) :
    (addSighting g f e s).2 = (e.take (behindGate g f s)).2 := by
  unfold addSighting behindGate
  cases g.evaluate f s <;> rfl

theorem addSightings_eq_takeEach (e : Estimator α) (sightings : List (Sighting α)) :
    (addSightings g f e sightings).2 = (e.takeEach (sightings.map (behindGate g f))).2 := by
  induction sightings generalizing e with
  | nil => rfl
  | cons s rest ih =>
    rw [addSightings_cons, addSighting_eq_take]
    exact ih _

/-- What the estimator of a robot takes in during a control cycle. -/
theorem estimator_cycle (r : Robot α) (now : α) (inputs : DriveInputs α) (queue : SightingQueue α) :
    (r.cycle now inputs queue).2.1.estimator
      = (r.estimator.takeEach (.command (.batch inputs.odometry)
          :: (Sighting.inOrder queue.waiting).map (behindGate r.gate r.field))).2 := by
  show (addSightings r.gate r.field (r.estimator.addBatch inputs.odometry).2
    (Sighting.inOrder ([] ++ queue.waiting))).2 = _
  rw [List.nil_append]
  exact addSightings_eq_takeEach r.gate r.field _ _

end Robot

namespace Session

open Estimator

variable {α : Type} [Scalar α]

theorem exists_intakes_perform (s : Session α) (c : Command α) :
    ∃ intakes, (s.perform c).2.robot.estimator = (s.robot.estimator.takeEach intakes).2 := by
  cases c with
  | sight o => exact ⟨[], rfl⟩
  | cycle now inputs => exact ⟨_, Robot.estimator_cycle s.robot now inputs s.queue⟩
  | join a => exact ⟨[], rfl⟩
  | reset p => exact ⟨[.command (.reset p)], rfl⟩

/-- Whatever happens in a session, there is something for the estimator to take in that
leaves it as the session does. -/
theorem exists_intakes_run (s : Session α) (commands : List (Command α)) :
    ∃ intakes, (s.run commands).2.robot.estimator = (s.robot.estimator.takeEach intakes).2 := by
  induction commands generalizing s with
  | nil => exact ⟨[], rfl⟩
  | cons c rest ih =>
    obtain ⟨first, hfirst⟩ := exists_intakes_perform s c
    obtain ⟨second, hsecond⟩ := ih (s.perform c).2
    refine ⟨first ++ second, ?_⟩
    rw [takeEach_append, ← hfirst]
    exact hsecond

end Session

end SwerveLocalization
