import SwerveLocalization.ConfigurationFault
import SwerveLocalization.Field.Alliance
import SwerveLocalization.Plane.Pose

/-!
# The field

The field is a rectangle with the origin in the blue corner, and its landmark
is the hub. Everything is authored from the blue side. What the red alliance
sees is found by flipping, and nothing is stored twice.
-/

namespace SwerveLocalization

/-- How the red half of a field corresponds to the blue half. -/
inductive Symmetry
  /-- Reflected across the centre line between the two sides. -/
  | reflected
  /-- Turned by half a turn about the centre of the field. -/
  | rotational
deriving DecidableEq

/-- A field, in metres. -/
structure Field (α : Type) where
  length : α
  width : α
  symmetry : Symmetry
  /-- The centre of the blue hub, with its height. -/
  hub : Vec3 α
deriving DecidableEq

namespace Field

variable {α : Type} [Scalar α]

/-- The field of the season. -/
def standard : Field α := ⟨16.541, 8.069, .reflected, ⟨4.6256, 4.0345, 1.8288⟩⟩

/-- Whether a dimension is positive and finite. -/
def isDimension (x : α) : Bool := decide (0 < x) && Scalar.isFinite x

/-- Refuses a field without area. -/
def validate (f : Field α) : Except (ConfigurationFault α) Unit :=
  if isDimension f.length && isDimension f.width then .ok ()
  else .error (.invalidField f.length f.width)

/-- Whether a point lies on the field, its border included. -/
def contains (f : Field α) (p : Vec2 α) : Bool :=
  Scalar.isWithin 0 f.length p.x && Scalar.isWithin 0 f.width p.y

/-- The image of a point under the symmetry of the field. -/
def image (f : Field α) (p : Vec2 α) : Vec2 α :=
  match f.symmetry with
  | .reflected => ⟨f.length - p.x, p.y⟩
  | .rotational => ⟨f.length - p.x, f.width - p.y⟩

/-- The image of a heading under the symmetry of the field. -/
def imageHeading (f : Field α) (heading : α) : α :=
  match f.symmetry with
  | .reflected => Scalar.pi - heading
  | .rotational => heading + Scalar.pi

/-- A point as `alliance` sees it. Only red sees the field flipped. -/
def flip (f : Field α) (a : Alliance) (p : Vec2 α) : Vec2 α :=
  if a = .red then f.image p else p

/-- A pose as `alliance` sees it. -/
def flipPose (f : Field α) (a : Alliance) (p : Pose α) : Pose α :=
  if a = .red then .make (f.image p.position) (f.imageHeading p.heading) else p

/-- A landmark as `alliance` sees it, at its own height. -/
def flipLandmark (f : Field α) (a : Alliance) (p : Vec3 α) : Vec3 α :=
  let flat := f.flip a p.floor
  ⟨flat.x, flat.y, p.z⟩

/-- The hub that `alliance` scores into. -/
def hubOf (f : Field α) (a : Alliance) : Vec3 α := f.flipLandmark a f.hub

/-- The hub that the opponent scores into. -/
def opposingHub (f : Field α) (a : Alliance) : Vec3 α := f.hubOf a.opponent

end Field

end SwerveLocalization
