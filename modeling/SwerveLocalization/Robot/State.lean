import SwerveLocalization.Localization.Command
import SwerveLocalization.Shot.Shooter
import SwerveLocalization.Vision.Gate

/-!
# The robot

A robot knows where it is, what field it plays on and what it aims at. Once
per control cycle it takes in the wheel readings since the last cycle, then
the sightings that wait, each in the order of their times; wheels come first,
so a camera pose captured during the cycle finds a record to be compared
with. Between cycles every question is answered from the state the last cycle
left behind.
-/

namespace SwerveLocalization

/-- What the drivetrain reports in one control cycle. -/
structure DriveInputs (α : Type) where
  /-- The wheel readings since the last cycle, in any order. -/
  odometry : List (DriveSample α)
  /-- The latest state of each wheel. -/
  states : Wheels (WheelState α)
deriving DecidableEq

/-- A robot on a field. -/
structure Robot (α : Type) where
  estimator : Estimator α
  field : Field α
  gate : GateSettings α
  shooter : Shooter α
  alliance : Alliance
  states : Wheels (WheelState α)
  lastCycle : Option α
deriving DecidableEq

/-- The parts a robot is built from. -/
structure RobotParts (α : Type) where
  offsets : Wheels (Vec2 α)
  pose : Pose α
  settings : EstimatorSettings α
  field : Field α
  gate : GateSettings α
  shooter : Shooter α
  alliance : Alliance
deriving DecidableEq

/-- What became of the samples of one control cycle, in the order in which
they were taken in. -/
structure CycleReport (α : Type) where
  odometry : List (DriveSample α × Verdict)
  vision : List (Sighting α × Verdict)
deriving DecidableEq

variable {α : Type} [Scalar α]

namespace Robot

/-- Builds a robot from parts that fit: a field with an area, wheels that
span a chassis, and an estimator that can remember. -/
def build (p : RobotParts α) : Except (ConfigurationFault α) (Robot α) :=
  match p.field.validate with
  | .error fault => .error fault
  | .ok _ =>
    match Chassis.build p.offsets with
    | .error fault => .error fault
    | .ok chassis =>
      match Estimator.build chassis p.pose p.settings with
      | .error fault => .error fault
      | .ok estimator =>
        .ok ⟨estimator, p.field, p.gate, p.shooter, p.alliance, .replicate .rest, none⟩

/-- Takes one sighting through the gate and into an estimator. -/
def addSighting (g : GateSettings α) (f : Field α) (e : Estimator α) (s : Sighting α) :
    Verdict × Estimator α :=
  match g.evaluate f s with
  | .ok m => e.addPose m
  | .error r => (.rejected r, e.recordRejection r)

/-- Takes sightings through the gate one after the other. -/
def addSightings (g : GateSettings α) (f : Field α) (e : Estimator α) :
    List (Sighting α) → List (Sighting α × Verdict) × Estimator α
  | [] => ([], e)
  | s :: rest =>
    let (verdict, after) := addSighting g f e s
    let (others, last) := addSightings g f after rest
    ((s, verdict) :: others, last)

@[simp] theorem addSightings_nil (g : GateSettings α) (f : Field α) (e : Estimator α) :
    addSightings g f e [] = ([], e) := rfl

@[simp] theorem addSightings_cons (g : GateSettings α) (f : Field α) (e : Estimator α)
    (s : Sighting α) (rest : List (Sighting α)) :
    addSightings g f e (s :: rest)
      = ((s, (addSighting g f e s).1) :: (addSightings g f (addSighting g f e s).2 rest).1,
          (addSightings g f (addSighting g f e s).2 rest).2) := rfl

/-- Sightings may be taken in in two goes. -/
theorem addSightings_append (g : GateSettings α) (f : Field α) (e : Estimator α)
    (first second : List (Sighting α)) :
    addSightings g f e (first ++ second)
      = ((addSightings g f e first).1
            ++ (addSightings g f (addSightings g f e first).2 second).1,
          (addSightings g f (addSightings g f e first).2 second).2) := by
  induction first generalizing e with
  | nil => rfl
  | cons s rest ih => simp [ih]

/-- One control cycle at the time `now`. The queue is empty afterwards. -/
def cycle (r : Robot α) (now : α) (inputs : DriveInputs α) (queue : SightingQueue α) :
    CycleReport α × Robot α × SightingQueue α :=
  let (odometry, driven) := r.estimator.addBatch inputs.odometry
  let (sightings, queue) := queue.drain []
  let (vision, estimator) := addSightings r.gate r.field driven (Sighting.inOrder sightings)
  (⟨odometry, vision⟩, { r with estimator, states := inputs.states, lastCycle := some now }, queue)

/-- Puts the robot somewhere. -/
def resetPose (r : Robot α) (pose : Pose α) : Robot α :=
  { r with estimator := r.estimator.resetPose pose }

/-- Tells the robot its alliance. -/
def joinAlliance (r : Robot α) (a : Alliance) : Robot α := { r with alliance := a }

/-- Where the robot believes it is. -/
def pose (r : Robot α) : Pose α := r.estimator.pose

/-- The confidence as of the last cycle. -/
def confidence (r : Robot α) : α :=
  match r.lastCycle with
  | none => 0
  | some now => r.estimator.confidence now

/-- The velocity of the robot in its own frame. -/
def robotVelocity (r : Robot α) : ChassisVelocity α :=
  r.estimator.reckoner.chassis.velocity r.states

/-- The velocity of the robot in the frame of the field. -/
def fieldVelocity (r : Robot α) : ChassisVelocity α := r.robotVelocity.toField r.pose.heading

/-- The hub the robot scores into. -/
def hub (r : Robot α) : Vec3 α := r.field.hubOf r.alliance

/-- The hub the opponent scores into. -/
def opposingHub (r : Robot α) : Vec3 α := r.field.opposingHub r.alliance

/-- The distance of the robot's own hub. -/
def hubDistance (r : Robot α) : α := Aim.distance r.pose r.hub

/-- The distance of the opponent's hub. -/
def opposingHubDistance (r : Robot α) : α := Aim.distance r.pose r.opposingHub

/-- The direction of the robot's own hub, in the frame of the field. -/
def hubBearing (r : Robot α) : α := Aim.bearing r.pose r.hub

/-- The turn that makes the robot face its own hub. -/
def hubHeadingError (r : Robot α) : α := Aim.headingError r.pose r.hub

/-- The shot at the robot's own hub. -/
def hubShot (r : Robot α) : Shot α := r.shooter.shotAt r.pose r.hub

end Robot

end SwerveLocalization
