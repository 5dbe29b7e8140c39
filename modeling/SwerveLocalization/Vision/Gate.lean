import SwerveLocalization.Field.Layout
import SwerveLocalization.Localization.Measurement
import SwerveLocalization.Rejection
import SwerveLocalization.Vision.Sighting

/-!
# The gate between cameras and estimator

A sighting passes the gate if it is plausible: its tags, its ambiguity, its
height and its place on the field. It is then given standard deviations that
grow with the square of the distance of the tags and shrink with their
number.
-/

namespace SwerveLocalization

/-- What a gate lets pass and how far it trusts it. -/
structure GateSettings (α : Type) where
  /-- The most ambiguous single tag that is let through. -/
  maxAmbiguity : α
  /-- The height above or below the floor that is let through, in metres. -/
  maxHeight : α
  /-- The deviation of the position for one tag at one metre. -/
  linearBaseline : α
  /-- The deviation of the heading for one tag at one metre. -/
  angularBaseline : α
  /-- A factor for each camera; a camera without one has the factor 1. -/
  cameraFactors : List α
  /-- A factor on the deviation of the position where the heading came from
  the gyro. -/
  gyroLinearFactor : α
deriving DecidableEq

namespace GateSettings

variable {α : Type} [Scalar α]

/-- The settings of a gate out of the box, for two cameras. -/
def standard : GateSettings α := ⟨0.3, 0.75, 0.02, 0.06, [1, 1], 0.5⟩

/-- The smallest deviation that is ever claimed: the distance from 1 to the
next binary64 number. A tag at the lens would otherwise claim certainty. -/
def leastDeviation : α := 2.220446049250313e-16

/-- By how much the deviations of a sighting exceed the baselines. -/
def spread (g : GateSettings α) (s : Sighting α) : α :=
  s.tagDistance * s.tagDistance / Scalar.ofNat s.tags.toNat * g.cameraFactors.getD s.camera 1

/-- The standard deviations of position and heading of a sighting. -/
def deviations (g : GateSettings α) (s : Sighting α) : Vec3 α :=
  let linear := g.linearBaseline * g.spread s
  match s.source with
  | .tags =>
    let position := Scalar.larger linear leastDeviation
    ⟨position, position, Scalar.larger (g.angularBaseline * g.spread s) leastDeviation⟩
  | .tagsAndGyro =>
    let position := Scalar.larger (linear * g.gyroLinearFactor) leastDeviation
    ⟨position, position, Scalar.larger Scalar.infinity leastDeviation⟩

/-- Lets a sighting through as a measurement, or says why not. -/
def evaluate (g : GateSettings α) (f : Field α) (s : Sighting α) :
    Except Rejection (PoseMeasurement α) :=
  if !s.isFinite then .error .nonFinitePose
  else if s.tags = 0 then .error .noTags
  else if s.tags = 1 ∧ g.maxAmbiguity < s.ambiguity then .error .ambiguous
  else if g.maxHeight < Scalar.magnitude s.z then .error .heightError
  else if !f.contains ⟨s.x, s.y⟩ then .error .outsideField
  else .ok ⟨.make ⟨s.x, s.y⟩ s.heading, s.time, g.deviations s⟩

end GateSettings

end SwerveLocalization
