import Mathlib
import SwerveLocalization.Proofs.Localization.Steps
import SwerveLocalization.Robot.Session

/-!
# Runs of a robot

The robot without its cameras: every control cycle brings the queue that has
filled up since the last one. A session does nothing else, as `run_arrivals`
shows, so what holds of these runs holds of sessions.
-/

namespace SwerveLocalization.Robot

variable {α : Type} [Scalar α]

/-- One thing that happens to a robot. -/
inductive Command (α : Type)
  /-- A control cycle runs, and these sightings wait. -/
  | cycle (now : α) (inputs : DriveInputs α) (queue : SightingQueue α)
  /-- The robot learns its alliance. -/
  | join (alliance : Alliance)
  /-- The robot is put somewhere. -/
  | reset (pose : Pose α)
deriving DecidableEq

/-- Carries out a command and reports on the samples it took in. -/
def perform (r : Robot α) : Command α → CycleReport α × Robot α
  | .cycle now inputs queue =>
    let (report, after, _) := r.cycle now inputs queue
    (report, after)
  | .join a => (⟨[], []⟩, r.joinAlliance a)
  | .reset pose => (⟨[], []⟩, r.resetPose pose)

/-- Carries out commands one after the other. -/
def run (r : Robot α) : List (Command α) → List (CycleReport α) × Robot α
  | [] => ([], r)
  | c :: rest =>
    let (report, after) := r.perform c
    let (others, last) := after.run rest
    (report :: others, last)

@[simp] theorem run_nil (r : Robot α) : r.run [] = ([], r) := rfl

@[simp] theorem run_cons (r : Robot α) (c : Command α) (rest : List (Command α)) :
    r.run (c :: rest)
      = ((r.perform c).1 :: ((r.perform c).2.run rest).1, ((r.perform c).2.run rest).2) := rfl

/-- What happens in a session if the sightings of a cycle arrive one by one
before it. -/
def Command.arrivals : Command α → List (Session.Command α)
  | .cycle now inputs queue => queue.waiting.map .sight ++ [.cycle now inputs]
  | .join a => [.join a]
  | .reset pose => [.reset pose]

theorem run_sights (s : Session α) (sightings : List (Sighting α)) :
    s.run (sightings.map .sight)
      = (sightings.map fun _ => ⟨[], []⟩, ⟨s.robot, ⟨s.queue.waiting ++ sightings⟩⟩) := by
  induction sightings generalizing s with
  | nil => simp [Session.run]
  | cons o rest ih => simp [Session.run, Session.perform, ih]

theorem run_arrivals_single {β : Type} (f : CycleReport α → List β) (hf : f ⟨[], []⟩ = [])
    (r : Robot α) (c : Command α) :
    ((Session.start r).run c.arrivals).2 = Session.start (r.perform c).2 ∧
      ((Session.start r).run c.arrivals).1.flatMap f = f (r.perform c).1 := by
  cases c with
  | cycle now inputs queue =>
    have hsights : (queue.waiting.map fun _ => (⟨[], []⟩ : CycleReport α)).flatMap f = [] := by
      simp [hf]
    rw [Command.arrivals, Session.run_append, run_sights]
    refine ⟨rfl, ?_⟩
    rw [List.flatMap_append, hsights, List.nil_append]
    exact List.append_nil _
  | join a => exact ⟨rfl, by simp [Command.arrivals, Session.run, Session.perform, perform]⟩
  | reset pose => exact ⟨rfl, by simp [Command.arrivals, Session.run, Session.perform, perform]⟩

/-- A session leads the robot where its own run does, and the two report the
same samples with the same verdicts. -/
theorem run_arrivals {β : Type} (f : CycleReport α → List β) (hf : f ⟨[], []⟩ = [])
    (r : Robot α) (commands : List (Command α)) :
    ((Session.start r).run (commands.flatMap Command.arrivals)).2 = Session.start (r.run commands).2 ∧
      ((Session.start r).run (commands.flatMap Command.arrivals)).1.flatMap f
        = (r.run commands).1.flatMap f := by
  induction commands generalizing r with
  | nil => exact ⟨rfl, rfl⟩
  | cons c rest ih =>
    obtain ⟨hstate, hreports⟩ := run_arrivals_single f hf r c
    obtain ⟨hlast, hothers⟩ := ih (r.perform c).2
    rw [List.flatMap_cons, Session.run_append, hstate]
    refine ⟨hlast, ?_⟩
    rw [List.flatMap_append, hreports, hothers]
    rfl

/-- The parts of a robot on a square chassis. -/
def squareParts : RobotParts α :=
  ⟨Chassis.rectangle 1 1, .origin, .standard, .standard, .standard, .standard, .blue⟩

/-- The robot that they make. -/
def squareRobot : Robot α :=
  ⟨.fresh .square .origin, .standard, .standard, .standard, .blue, .replicate .rest, none⟩

theorem build_squareParts : build squareParts = .ok (squareRobot : Robot Float) := by
  decide +kernel

end SwerveLocalization.Robot
