import SwerveLocalization.Localization.Estimator

/-!
# Runs of an estimator

Everything that can happen to an estimator, as data, so that whole runs can
be stated and compared. `perform` carries out one command and gives a verdict
for each sample in it; `run` carries out many.
-/

namespace SwerveLocalization.Estimator

variable {α : Type} [Scalar α]

/-- One thing that happens to an estimator. -/
inductive Command (α : Type)
  /-- A wheel reading arrives. -/
  | drive (sample : DriveSample α)
  /-- Several wheel readings arrive at once, in any order. -/
  | batch (samples : List (DriveSample α))
  /-- A camera pose arrives. -/
  | vision (measurement : PoseMeasurement α)
  /-- The robot is put somewhere. -/
  | reset (pose : Pose α)
deriving DecidableEq

/-- Carries out a command. The verdicts are those of its samples, in the
order in which they were taken in. -/
def perform (e : Estimator α) : Command α → List Verdict × Estimator α
  | .drive s =>
    let (verdict, after) := e.addDrive s
    ([verdict], after)
  | .batch samples =>
    let (judged, after) := e.addBatch samples
    (judged.map Prod.snd, after)
  | .vision m =>
    let (verdict, after) := e.addPose m
    ([verdict], after)
  | .reset pose => ([], e.resetPose pose)

/-- Carries out commands one after the other. -/
def run (e : Estimator α) : List (Command α) → List (List Verdict) × Estimator α
  | [] => ([], e)
  | c :: rest =>
    let (verdicts, after) := e.perform c
    let (others, last) := after.run rest
    (verdicts :: others, last)

/-- A run may be cut into two. -/
theorem run_append (e : Estimator α) (first second : List (Command α)) :
    e.run (first ++ second)
      = ((e.run first).1 ++ ((e.run first).2.run second).1, ((e.run first).2.run second).2) := by
  induction first generalizing e with
  | nil => rfl
  | cons c rest ih => simp [run, ih]

end SwerveLocalization.Estimator
