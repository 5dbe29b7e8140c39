import SwerveLocalization.Shot.Aim
import SwerveLocalization.Shot.CalibrationCurve

/-!
# The shooter

The flywheel speed for a shot is read off a calibration curve and confined to
an envelope that is always safe. Without any calibration the shooter falls
back to the lowest safe speed and says so.
-/

namespace SwerveLocalization

/-- The speeds a flywheel may turn at, in revolutions per minute, and the
distances a shot is attempted from, in metres. -/
structure ShotLimits (α : Type) where
  minSpeed : α
  maxSpeed : α
  minRange : α
  maxRange : α
deriving DecidableEq

/-- A flywheel speed. It is degenerate if there was no calibration to read it
from. -/
structure FlywheelSpeed (α : Type) where
  speed : α
  degenerate : Bool
deriving DecidableEq

/-- What it takes to hit a target from a pose. -/
structure Shot (α : Type) where
  distance : α
  bearing : α
  flywheel : FlywheelSpeed α
  inRange : Bool
deriving DecidableEq

/-- A shooter: its limits and its calibration. -/
structure Shooter (α : Type) where
  limits : ShotLimits α
  curve : CalibrationCurve α
deriving DecidableEq

variable {α : Type} [Scalar α]

namespace ShotLimits

/-- The limits of a shooter out of the box. -/
def standard : ShotLimits α := ⟨100.0, 5600.0, 0.5, 15.0⟩

/-- Whether `low` and `high` bound an interval of finite numbers. -/
def isRange (low high : α) : Bool :=
  Scalar.isFinite low && Scalar.isFinite high && decide (low ≤ high)

/-- Refuses limits that leave no speed or no distance. -/
def validate (l : ShotLimits α) : Except (ConfigurationFault α) Unit :=
  if !isRange l.minSpeed l.maxSpeed then .error (.invalidRange l.minSpeed l.maxSpeed)
  else if !isRange l.minRange l.maxRange then .error (.invalidRange l.minRange l.maxRange)
  else .ok ()

end ShotLimits

namespace Shooter

/-- A shooter with checked limits. -/
def build (limits : ShotLimits α) (curve : CalibrationCurve α) :
    Except (ConfigurationFault α) (Shooter α) :=
  limits.validate.map fun _ => ⟨limits, curve⟩

/-- A shooter out of the box, calibrated at a distance of five feet. -/
def standard : Shooter α := ⟨.standard, ⟨[⟨1.524, 990.0⟩]⟩⟩

/-- The flywheel speed for a shot over `distance`. -/
def flywheelFor (s : Shooter α) (distance : α) : FlywheelSpeed α :=
  match s.curve.get? distance with
  | some speed => ⟨Scalar.confine s.limits.minSpeed s.limits.maxSpeed speed, false⟩
  | none => ⟨s.limits.minSpeed, s.curve.isEmpty⟩

/-- Whether a shot over `distance` is attempted. -/
def isInRange (s : Shooter α) (distance : α) : Bool :=
  Scalar.isWithin s.limits.minRange s.limits.maxRange distance

/-- The shot at `target` from a pose. -/
def shotAt (s : Shooter α) (p : Pose α) (target : Vec3 α) : Shot α :=
  let distance := Aim.distance p target
  ⟨distance, Aim.bearing p target, s.flywheelFor distance, s.isInRange distance⟩

end Shooter

end SwerveLocalization
