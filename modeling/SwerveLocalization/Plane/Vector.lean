import SwerveLocalization.Scalar

/-!
# Vectors

Vectors of the floor plane, and vectors of space for landmarks and for
systems of three equations. Products are summed from left to right.
-/

namespace SwerveLocalization

/-- A vector of the plane. -/
structure Vec2 (α : Type) where
  x : α
  y : α
deriving DecidableEq

/-- A vector of space. -/
structure Vec3 (α : Type) where
  x : α
  y : α
  z : α
deriving DecidableEq

variable {α : Type} [Scalar α]

namespace Vec2

instance : Add (Vec2 α) := ⟨fun u v => ⟨u.x + v.x, u.y + v.y⟩⟩

instance : Sub (Vec2 α) := ⟨fun u v => ⟨u.x - v.x, u.y - v.y⟩⟩

/-- The vector `k` times as long. -/
def scale (v : Vec2 α) (k : α) : Vec2 α := ⟨v.x * k, v.y * k⟩

/-- The length of a vector. -/
def norm (v : Vec2 α) : α := Scalar.sqrt (v.x * v.x + v.y * v.y)

/-- The vector turned counterclockwise by `angle`. -/
def rotate (v : Vec2 α) (angle : α) : Vec2 α :=
  ⟨Scalar.cos angle * v.x - Scalar.sin angle * v.y,
    Scalar.sin angle * v.x + Scalar.cos angle * v.y⟩

/-- The vector of length `r` in the direction `angle`. -/
def polar (r angle : α) : Vec2 α := ⟨r * Scalar.cos angle, r * Scalar.sin angle⟩

/-- The direction of a vector, counterclockwise from the first axis. -/
def direction (v : Vec2 α) : α := Scalar.atan2 v.y v.x

/-- The point a fraction `t` of the way from `start` to `finish`. At `t = 1`
the start plays no part, whatever it holds. -/
def blend (start finish : Vec2 α) (t : α) : Vec2 α :=
  let rest := 1 - t
  if rest == 0 then ⟨t * finish.x, t * finish.y⟩
  else ⟨t * finish.x + rest * start.x, t * finish.y + rest * start.y⟩

/-- Whether both components are finite. -/
def isFinite (v : Vec2 α) : Bool := Scalar.isFinite v.x && Scalar.isFinite v.y

end Vec2

namespace Vec3

instance : Add (Vec3 α) := ⟨fun u v => ⟨u.x + v.x, u.y + v.y, u.z + v.z⟩⟩

/-- The vector `k` times as long. -/
def scale (v : Vec3 α) (k : α) : Vec3 α := ⟨v.x * k, v.y * k, v.z * k⟩

/-- The sum of the products of the components. -/
def dot (u v : Vec3 α) : α := u.x * v.x + u.y * v.y + u.z * v.z

/-- The part of a vector that lies in the floor plane. -/
def floor (v : Vec3 α) : Vec2 α := ⟨v.x, v.y⟩

end Vec3

end SwerveLocalization
