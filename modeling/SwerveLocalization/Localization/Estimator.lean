import SwerveLocalization.Localization.DeadReckoning
import SwerveLocalization.Localization.Tally
import SwerveLocalization.Localization.Trajectory

/-!
# The pose estimator

Dead reckoning runs at once, and every pose it finds is recorded. A camera
pose arrives later than it was captured, so it is compared with the recorded
pose of its own time; a fraction of the difference is then applied to the
live estimate and to the whole record. The record thus always describes the
corrected path, and no difference is applied twice.

Every sample is either applied as a whole or rejected as a whole. A rejection
changes the tally and nothing else.
-/

namespace SwerveLocalization

/-- How long an estimator remembers. -/
structure EstimatorSettings (α : Type) where
  /-- How many poses are kept at most. -/
  capacity : Nat
  /-- For how many seconds poses are kept. -/
  window : α
  /-- The seconds without a camera pose after which the confidence has fallen
  to `1 / e`. -/
  timeConstant : α
deriving DecidableEq

/-- An estimator of the pose of a robot. -/
structure Estimator (α : Type) where
  settings : EstimatorSettings α
  reckoner : DeadReckoner α
  trajectory : Trajectory α
  lastOdometry : Option α
  lastVision : Option α
  tally : Tally
deriving DecidableEq

variable {α : Type} [Scalar α]

namespace EstimatorSettings

/-- Three hundred poses over two seconds. -/
def standard : EstimatorSettings α := ⟨300, 2.0, 1⟩

/-- Refuses settings under which nothing can be remembered. -/
def validate (s : EstimatorSettings α) : Except (ConfigurationFault α) Unit :=
  if s.capacity < 2 ∨ ¬ 0 < s.window then .error (.invalidHistory s.capacity s.window)
  else if ¬ 0 < s.timeConstant then .error (.invalidTimeConstant s.timeConstant)
  else .ok ()

end EstimatorSettings

namespace Estimator

/-- An estimator at `pose` that has seen nothing yet. -/
def build (chassis : Chassis α) (pose : Pose α) (settings : EstimatorSettings α) :
    Except (ConfigurationFault α) (Estimator α) :=
  settings.validate.map fun _ =>
    ⟨settings, .start chassis pose, .empty settings.capacity settings.window, none, none, .zero⟩

/-- The live estimate. -/
def pose (e : Estimator α) : Pose α := e.reckoner.pose

/-- Counts a rejection. -/
def recordRejection (e : Estimator α) (r : Rejection) : Estimator α :=
  { e with tally := e.tally.countRejection r }

/-- Whether a sample taken at `time` comes after the last applied one. -/
def isNewer (e : Estimator α) (time : α) : Bool :=
  match e.lastOdometry with
  | none => true
  | some last => !decide (time ≤ last)

/-- The estimator after a wheel reading, or why the reading is rejected. -/
def integrate (e : Estimator α) (s : DriveSample α) : Except Rejection (Estimator α) :=
  if !Scalar.isFinite s.time then .error .nonFiniteOdometry
  else if !e.isNewer s.time then .error .outOfOrderOdometry
  else
    match e.reckoner.update s.reading with
    | .error r => .error r
    | .ok reckoner =>
      .ok { e with
        reckoner
        lastOdometry := some s.time
        trajectory := (e.trajectory.push? ⟨s.time, reckoner.pose⟩).getD e.trajectory
        tally := e.tally.countOdometry }

/-- The correction that a camera pose asks for, or why it is rejected. -/
def assess (e : Estimator α) (m : PoseMeasurement α) : Except Rejection (Shift α) :=
  if !m.isFinite then .error .nonFinitePose
  else if !m.hasUsableDeviations then .error .invalidDeviations
  else
    match e.trajectory.oldest? with
    | none => .error .noHistory
    | some oldest =>
      if m.time < oldest.time then .error .stale
      else
        match e.trajectory.poseAt? m.time with
        | none => .error .stale
        | some past => .ok (m.correctionOf past)

/-- Displaces the live estimate and the whole record. -/
def displace (e : Estimator α) (s : Shift α) : Estimator α :=
  { e with reckoner := e.reckoner.correct s, trajectory := e.trajectory.shift s }

/-- Notes a camera pose captured at `time` as accepted. -/
def confirm (e : Estimator α) (time : α) : Estimator α :=
  { e with
    tally := e.tally.countVision
    lastVision := some (match e.lastVision with
      | none => time
      | some last => Scalar.larger last time) }

/-- Takes in a wheel reading. -/
def addDrive (e : Estimator α) (s : DriveSample α) : Verdict × Estimator α :=
  match e.integrate s with
  | .ok after => (.accepted, after)
  | .error r => (.rejected r, e.recordRejection r)

/-- Takes in a camera pose. -/
def addPose (e : Estimator α) (m : PoseMeasurement α) : Verdict × Estimator α :=
  match e.assess m with
  | .ok s => (.accepted, (e.displace s).confirm m.time)
  | .error r => (.rejected r, e.recordRejection r)

/-- Takes in wheel readings one after the other. The samples come back with
what became of them. -/
def addDrives (e : Estimator α) : List (DriveSample α) →
    List (DriveSample α × Verdict) × Estimator α
  | [] => ([], e)
  | s :: rest =>
    let (verdict, after) := e.addDrive s
    let (others, last) := after.addDrives rest
    ((s, verdict) :: others, last)

/-- Takes in wheel readings in the order of their times, whatever order they
were delivered in. -/
def addBatch (e : Estimator α) (samples : List (DriveSample α)) :
    List (DriveSample α × Verdict) × Estimator α :=
  e.addDrives (DriveSample.inOrder samples)

@[simp] theorem addDrives_nil (e : Estimator α) : e.addDrives [] = ([], e) := rfl

@[simp] theorem addDrives_cons (e : Estimator α) (s : DriveSample α) (rest : List (DriveSample α)) :
    e.addDrives (s :: rest)
      = ((s, (e.addDrive s).1) :: ((e.addDrive s).2.addDrives rest).1,
          ((e.addDrive s).2.addDrives rest).2) := rfl

/-- Every sample comes back, in the order given. -/
theorem samples_addDrives (e : Estimator α) (samples : List (DriveSample α)) :
    (e.addDrives samples).1.map Prod.fst = samples := by
  induction samples generalizing e with
  | nil => rfl
  | cons s rest ih => simp [ih]

/-- Samples may be taken in in two goes. -/
theorem addDrives_append (e : Estimator α) (first second : List (DriveSample α)) :
    e.addDrives (first ++ second)
      = ((e.addDrives first).1 ++ ((e.addDrives first).2.addDrives second).1,
          ((e.addDrives first).2.addDrives second).2) := by
  induction first generalizing e with
  | nil => rfl
  | cons s rest ih => simp [ih]

/-- Puts the robot somewhere else and forgets the path that led there. -/
def resetPose (e : Estimator α) (pose : Pose α) : Estimator α :=
  { e with
    trajectory := e.trajectory.clear
    reckoner := e.reckoner.reset pose
    lastVision := none }

/-- How recently a camera has confirmed the estimate: 1 at the capture of the
newest accepted camera pose, falling exponentially, and 0 without any. -/
def confidence (e : Estimator α) (now : α) : α :=
  match e.lastVision with
  | none => 0
  | some last => Scalar.exp (-Scalar.larger (now - last) 0 / e.settings.timeConstant)

end Estimator

end SwerveLocalization
