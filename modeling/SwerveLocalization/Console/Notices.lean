import SwerveLocalization.Console.Line
import SwerveLocalization.Decimal.Fixed
import SwerveLocalization.Robot.Session
import SwerveLocalization.Sensing.Sampler

/-!
# What the robot has to say

The notices that belong to what happens in a robot. They are read off the
verdicts and readings of each step, so nothing that computes has to speak.
-/

namespace SwerveLocalization

variable {α : Type} [Scalar α]

/-- What is said of a rejected sample. -/
def Rejection.notice (r : Rejection) : Notice :=
  let source := if r.isVision then "vision" else "odometry"
  ⟨.debug, "rejected " ++ source ++ " sample: " ++ r.message⟩

/-- What is said of a sample: nothing if it was accepted. -/
def Verdict.notices (v : Verdict) : List Notice := v.reason?.toList.map Rejection.notice

/-- What is said when the robot is put somewhere. -/
def Pose.resetNotice (p : Pose Float) : Notice :=
  ⟨.info, "pose reset to (" ++ Decimal.fixed 3 p.position.x ++ ", "
    ++ Decimal.fixed 3 p.position.y ++ ", " ++ Decimal.fixed 3 p.heading ++ " rad)"⟩

/-- What is said while an estimator carries out a command with the given
verdicts. -/
def Estimator.Command.notices (c : Estimator.Command Float) (verdicts : List Verdict) :
    List Notice :=
  match c with
  | .reset pose => [pose.resetNotice]
  | _ => verdicts.flatMap Verdict.notices

/-- What is said during a cycle. -/
def CycleReport.notices (r : CycleReport α) : List Notice :=
  (r.odometry.map Prod.snd ++ r.vision.map Prod.snd).flatMap Verdict.notices

/-- What is said while a session carries out a command with the given
report. -/
def Session.Command.notices (c : Session.Command Float) (r : CycleReport Float) : List Notice :=
  match c with
  | .reset pose => [pose.resetNotice]
  | _ => r.notices

/-- What is said when a shooter is built: a warning if it has no
calibration. -/
def Shooter.buildNotices (s : Shooter α) : List Notice :=
  if s.curve.isEmpty then
    [⟨.warn, "shot calibration table is empty, every lookup returns the minimum speed"⟩]
  else []

/-- What is said when a flywheel speed is asked for: a warning if there is no
calibration to read it from. -/
def Shooter.lookupNotices (s : Shooter α) : List Notice :=
  if s.curve.isEmpty then [⟨.warn, "no shot calibration, commanding minimum speed"⟩] else []

/-- What is said of a device called `name`: nothing if its reading was
good. -/
def Reading.notices {β : Type} (name : String) : Reading β → List Notice
  | .ok _ => []
  | .error fault => [⟨.debug, name ++ " read failed: " ++ fault.message⟩]

/-- What is said of the devices of the four wheels. -/
def Wheels.readingNotices {β : Type} (what : String) (w : Wheels (Reading β)) : List Notice :=
  w.toList.zipIdx.flatMap fun p =>
    Reading.notices ("module " ++ toString p.2 ++ " " ++ what) p.1

/-- What is said while the devices of a drivetrain are sampled. -/
def DeviceReadings.notices (r : DeviceReadings α) : List Notice :=
  let good := r.checked
  Reading.notices "gyro" good.gyro ++ good.travel.readingNotices "position"
    ++ good.states.readingNotices "state"

end SwerveLocalization
