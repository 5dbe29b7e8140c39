import SwerveLocalization.Robot.State

/-!
# Sessions

A robot together with the queue its cameras fill, and everything that can
happen to the two, as data.
-/

namespace SwerveLocalization

/-- A robot and the sightings that wait for its next cycle. -/
structure Session (α : Type) where
  robot : Robot α
  queue : SightingQueue α
deriving DecidableEq

namespace Session

variable {α : Type} [Scalar α]

/-- One thing that happens in a session. -/
inductive Command (α : Type)
  /-- A camera reports a pose. -/
  | sight (sighting : Sighting α)
  /-- A control cycle runs. -/
  | cycle (now : α) (inputs : DriveInputs α)
  /-- The robot learns its alliance. -/
  | join (alliance : Alliance)
  /-- The robot is put somewhere. -/
  | reset (pose : Pose α)
deriving DecidableEq

/-- A session in which nothing has happened yet. -/
def start (r : Robot α) : Session α := ⟨r, .empty⟩

/-- Carries out a command and reports on the samples it took in. -/
def perform (s : Session α) : Command α → CycleReport α × Session α
  | .sight o => (⟨[], []⟩, { s with queue := s.queue.push o })
  | .cycle now inputs =>
    let (report, robot, queue) := s.robot.cycle now inputs s.queue
    (report, ⟨robot, queue⟩)
  | .join a => (⟨[], []⟩, { s with robot := s.robot.joinAlliance a })
  | .reset pose => (⟨[], []⟩, { s with robot := s.robot.resetPose pose })

/-- Carries out commands one after the other. -/
def run (s : Session α) : List (Command α) → List (CycleReport α) × Session α
  | [] => ([], s)
  | c :: rest =>
    let (report, after) := s.perform c
    let (others, last) := after.run rest
    (report :: others, last)

/-- A session may be cut into two. -/
theorem run_append (s : Session α) (first second : List (Command α)) :
    s.run (first ++ second)
      = ((s.run first).1 ++ ((s.run first).2.run second).1, ((s.run first).2.run second).2) := by
  induction first generalizing s with
  | nil => rfl
  | cons c rest ih => simp [run, ih]

end Session

end SwerveLocalization
