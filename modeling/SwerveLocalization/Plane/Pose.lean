import SwerveLocalization.Angle
import SwerveLocalization.Plane.Vector

/-!
# Poses and motions in the plane

A pose is a point of the field with a heading, and its heading is always
wrapped. A twist is a motion as the robot feels it, along a curve of constant
curvature; a shift is a displacement in the frame of the field.
-/

namespace SwerveLocalization

/-- A point of the field and a heading there. -/
structure Pose (α : Type) where
  position : Vec2 α
  heading : α
deriving DecidableEq

/-- A motion in the frame of the pose it starts from. -/
structure Twist (α : Type) where
  dx : α
  dy : α
  dtheta : α
deriving DecidableEq

/-- A displacement in the frame of the field. -/
structure Shift (α : Type) where
  dx : α
  dy : α
  dtheta : α
deriving DecidableEq

variable {α : Type} [Scalar α]

namespace Pose

/-- The pose at `position` whose heading is `heading` up to whole turns. -/
def make (position : Vec2 α) (heading : α) : Pose α := ⟨position, Angle.wrap heading⟩

/-- The pose at the origin that looks along the first axis. -/
def origin : Pose α := ⟨⟨0, 0⟩, 0⟩

/-- Poses are compared as numbers are. -/
instance : BEq (Pose α) :=
  ⟨fun p q => p.position.x == q.position.x && p.position.y == q.position.y
    && p.heading == q.heading⟩

/-- Whether position and heading are finite. -/
def isFinite (p : Pose α) : Bool := p.position.isFinite && Scalar.isFinite p.heading

/-- The distance between two poses on the floor. -/
def distance (p q : Pose α) : α := (p.position - q.position).norm

/-- Position and heading as one vector. -/
def toVec3 (p : Pose α) : Vec3 α := ⟨p.position.x, p.position.y, p.heading⟩

/-- The pose with the position and heading that a vector holds. -/
def ofVec3 (v : Vec3 α) : Pose α := make v.floor v.z

/-- The length of the chord of an arc that turns by `angle`, relative to the
length of the arc. -/
def chordRatio (angle : α) : α :=
  if Scalar.magnitude angle < 1e-9 then 1 else 2.0 * Scalar.sin (angle / 2.0) / angle

/-- The pose reached by a twist. The arc is replaced by its chord, which
points along the mean heading of the motion. -/
def move (p : Pose α) (m : Twist α) : Pose α :=
  let chord := (Vec2.mk m.dx m.dy).scale (chordRatio m.dtheta)
  make (p.position + chord.rotate (p.heading + m.dtheta / 2.0)) (p.heading + m.dtheta)

/-- The pose displaced by a shift. -/
def shift (p : Pose α) (d : Shift α) : Pose α :=
  make (p.position + ⟨d.dx, d.dy⟩) (p.heading + d.dtheta)

/-- The shift that takes `q` onto `p`, turning the short way. -/
def difference (p q : Pose α) : Shift α :=
  ⟨p.position.x - q.position.x, p.position.y - q.position.y, Angle.turn p.heading q.heading⟩

/-- The pose a fraction `t` of the way from `start` to `finish`: the position
on the straight line, the heading on the shorter arc. -/
def blend (start finish : Pose α) (t : α) : Pose α :=
  make (start.position.blend finish.position t) (Angle.blend start.heading finish.heading t)

end Pose

end SwerveLocalization
