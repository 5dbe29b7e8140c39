import SwerveLocalization.Plane.Pose

/-!
# Aiming at a landmark

Distances and bearings are taken on the floor; the height of a landmark plays
no part.
-/

namespace SwerveLocalization.Aim

variable {α : Type} [Scalar α]

/-- The vector from a pose to a landmark. -/
def toward (p : Pose α) (target : Vec3 α) : Vec2 α := target.floor - p.position

/-- The distance of a landmark. -/
def distance (p : Pose α) (target : Vec3 α) : α := (toward p target).norm

/-- The direction of a landmark, in the frame of the field. -/
def bearing (p : Pose α) (target : Vec3 α) : α := (toward p target).direction

/-- The turn that makes the robot face a landmark. -/
def headingError (p : Pose α) (target : Vec3 α) : α := Angle.turn (bearing p target) p.heading

end SwerveLocalization.Aim
