import SwerveLocalization.Chassis.Kinematics
import SwerveLocalization.Localization.Measurement
import SwerveLocalization.Rejection

/-!
# Dead reckoning

A pose is carried forward by what the drivetrain reports. The position
changes by how far the wheels have rolled since the last reading. The heading
changes by as much as the gyro has turned and by nothing else, so slipping
wheels never turn the estimate.
-/

namespace SwerveLocalization

/-- A pose that follows the drivetrain, with the reading it was last moved
by. -/
structure DeadReckoner (α : Type) where
  chassis : Chassis α
  pose : Pose α
  baseline : Option (DriveReading α)
deriving DecidableEq

namespace DeadReckoner

variable {α : Type} [Scalar α]

/-- A reckoner at `pose` that has seen no reading yet. -/
def start (chassis : Chassis α) (pose : Pose α) : DeadReckoner α := ⟨chassis, pose, none⟩

/-- How far a wheel has rolled between two readings, at the angle it has
now. -/
def rolled (before now : WheelTravel α) : WheelTravel α :=
  ⟨now.distance - before.distance, now.angle⟩

/-- The motion between two readings. -/
def motionBetween (c : Chassis α) (before now : DriveReading α) : Twist α :=
  { c.motion (before.travel.zipWith rolled now.travel) with dtheta := now.gyro - before.gyro }

/-- Moves the pose by one reading. The first reading moves nothing and is
only remembered; one that is not finite is rejected. -/
def update (d : DeadReckoner α) (r : DriveReading α) : Except Rejection (DeadReckoner α) :=
  if !r.isFinite then .error .nonFiniteOdometry
  else
    match d.baseline with
    | none => .ok { d with baseline := some r }
    | some before =>
      .ok { d with pose := d.pose.move (motionBetween d.chassis before r), baseline := some r }

/-- Puts the pose somewhere else. The last reading stays the one that later
motion is measured from. -/
def reset (d : DeadReckoner α) (pose : Pose α) : DeadReckoner α := { d with pose }

/-- Displaces the pose. -/
def correct (d : DeadReckoner α) (s : Shift α) : DeadReckoner α := { d with pose := d.pose.shift s }

end DeadReckoner

end SwerveLocalization
