import SwerveLocalization.Chassis.Wheels
import SwerveLocalization.Plane.Pose

/-!
# Measurements

What the sensors tell about the robot: readings of gyro and wheels, and poses
seen by a camera with the standard deviations of their three components.
-/

namespace SwerveLocalization

/-- One reading of the drivetrain. -/
structure DriveReading (α : Type) where
  /-- The heading of the gyro, continuous over whole turns. -/
  gyro : α
  /-- How far the wheels have rolled since the start. -/
  travel : Wheels (WheelTravel α)
deriving DecidableEq

/-- A reading of the drivetrain with its time, in seconds. -/
structure DriveSample (α : Type) where
  time : α
  reading : DriveReading α
deriving DecidableEq

/-- A pose seen by a camera, the time of its capture, and the standard
deviations of its position and heading. -/
structure PoseMeasurement (α : Type) where
  pose : Pose α
  time : α
  deviations : Vec3 α
deriving DecidableEq

variable {α : Type} [Scalar α]

/-- The fraction of a residual that a measurement with the standard deviation
`deviation` corrects. An infinite deviation corrects nothing. -/
def trust (deviation : α) : α :=
  if Scalar.isInfinite deviation then 0 else 1 / (1 + deviation)

/-- Whether gyro and wheels gave finite numbers. -/
def DriveReading.isFinite (r : DriveReading α) : Bool :=
  Scalar.isFinite r.gyro && r.travel.toList.all WheelTravel.isFinite

/-- Samples in the order of their times, samples of one time as they came. -/
def DriveSample.inOrder (samples : List (DriveSample α)) : List (DriveSample α) :=
  samples.mergeSort fun a b => Scalar.totalLe a.time b.time

namespace PoseMeasurement

/-- Whether pose and time are finite. -/
def isFinite (m : PoseMeasurement α) : Bool := m.pose.isFinite && Scalar.isFinite m.time

/-- Whether every deviation is positive and one of them is finite. -/
def hasUsableDeviations (m : PoseMeasurement α) : Bool :=
  let d := m.deviations
  decide (0 < d.x) && decide (0 < d.y) && decide (0 < d.z)
    && !(Scalar.isInfinite d.x && Scalar.isInfinite d.y && Scalar.isInfinite d.z)

/-- The correction a measurement makes to an estimate of its pose: a fraction
of the residual on each axis, as much as the axis is trusted. -/
def correctionOf (m : PoseMeasurement α) (estimate : Pose α) : Shift α :=
  let residual := m.pose.difference estimate
  ⟨trust m.deviations.x * residual.dx, trust m.deviations.y * residual.dy,
    trust m.deviations.z * residual.dtheta⟩

end PoseMeasurement

end SwerveLocalization
