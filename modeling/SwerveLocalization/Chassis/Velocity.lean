import SwerveLocalization.Plane.Vector

/-!
# Chassis velocities

The velocity of the chassis as a whole, with the frame it is expressed in.
-/

namespace SwerveLocalization

/-- The frame of a velocity. -/
inductive Frame
  /-- The first axis points forward, the second to the left of the chassis. -/
  | robot
  /-- The axes are those of the field. -/
  | field
deriving DecidableEq

/-- A chassis velocity: metres per second along two axes of a frame, and
radians per second counterclockwise. -/
structure ChassisVelocity (α : Type) where
  vx : α
  vy : α
  omega : α
  frame : Frame
deriving DecidableEq

namespace ChassisVelocity

variable {α : Type} [Scalar α]

/-- A chassis at rest. -/
def zero (frame : Frame) : ChassisVelocity α := ⟨0, 0, 0, frame⟩

/-- The velocity without its turning. -/
def linear (v : ChassisVelocity α) : Vec2 α := ⟨v.vx, v.vy⟩

/-- The velocity in the field frame, for a robot with the given heading. -/
def toField (v : ChassisVelocity α) (heading : α) : ChassisVelocity α :=
  match v.frame with
  | .field => v
  | .robot =>
    let turned := v.linear.rotate heading
    ⟨turned.x, turned.y, v.omega, .field⟩

/-- The velocity in the robot frame, for a robot with the given heading. -/
def toRobot (v : ChassisVelocity α) (heading : α) : ChassisVelocity α :=
  match v.frame with
  | .robot => v
  | .field =>
    let turned := v.linear.rotate (-heading)
    ⟨turned.x, turned.y, v.omega, .robot⟩

end ChassisVelocity

end SwerveLocalization
