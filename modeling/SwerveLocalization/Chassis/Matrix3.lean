import SwerveLocalization.Plane.Vector

/-!
# Matrices of three rows and columns

The normal equations of a least-squares problem with three unknowns. Inverses
are found by expansion into minors, and a matrix counts as singular only if
its determinant is zero.
-/

namespace SwerveLocalization

/-- A matrix of three rows and three columns; `mij` stands in row `i` and
column `j`. -/
structure Matrix3 (α : Type) where
  m11 : α
  m12 : α
  m13 : α
  m21 : α
  m22 : α
  m23 : α
  m31 : α
  m32 : α
  m33 : α
deriving DecidableEq

namespace Matrix3

variable {α : Type} [Scalar α]

instance : Add (Matrix3 α) :=
  ⟨fun a b =>
    ⟨a.m11 + b.m11, a.m12 + b.m12, a.m13 + b.m13,
      a.m21 + b.m21, a.m22 + b.m22, a.m23 + b.m23,
      a.m31 + b.m31, a.m32 + b.m32, a.m33 + b.m33⟩⟩

/-- The products of the components of a vector with each other. -/
def square (v : Vec3 α) : Matrix3 α :=
  ⟨v.x * v.x, v.x * v.y, v.x * v.z,
    v.y * v.x, v.y * v.y, v.y * v.z,
    v.z * v.x, v.z * v.y, v.z * v.z⟩

/-- The determinant, expanded along the first row. -/
def det (a : Matrix3 α) : α :=
  a.m11 * (a.m22 * a.m33 - a.m32 * a.m23) - a.m12 * (a.m21 * a.m33 - a.m31 * a.m23)
    + a.m13 * (a.m21 * a.m32 - a.m31 * a.m22)

/-- The inverse, unless the determinant is zero. -/
def inverse? (a : Matrix3 α) : Option (Matrix3 α) :=
  let d := a.det
  if d == 0 then none
  else some
    ⟨(a.m22 * a.m33 - a.m32 * a.m23) / d, (a.m13 * a.m32 - a.m33 * a.m12) / d,
      (a.m12 * a.m23 - a.m22 * a.m13) / d,
      -(a.m21 * a.m33 - a.m31 * a.m23) / d, (a.m11 * a.m33 - a.m31 * a.m13) / d,
      (a.m13 * a.m21 - a.m23 * a.m11) / d,
      (a.m21 * a.m32 - a.m31 * a.m22) / d, (a.m12 * a.m31 - a.m32 * a.m11) / d,
      (a.m11 * a.m22 - a.m21 * a.m12) / d⟩

/-- The product with a column. -/
def mulVec (a : Matrix3 α) (v : Vec3 α) : Vec3 α :=
  ⟨Vec3.dot ⟨a.m11, a.m12, a.m13⟩ v, Vec3.dot ⟨a.m21, a.m22, a.m23⟩ v,
    Vec3.dot ⟨a.m31, a.m32, a.m33⟩ v⟩

end Matrix3

end SwerveLocalization
