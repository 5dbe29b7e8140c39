import SwerveLocalization.Scalar

/-!
# Interpolation on a line

`lerp` walks from one value to another; `inverseLerp` says how far along the
way a value lies.
-/

namespace SwerveLocalization

variable {α : Type} [Scalar α]

/-- The value a fraction `t` of the way from `a` to `b`. -/
def lerp (a b t : α) : α := a + (b - a) * t

/-- The fraction of the way from `a` to `b` at which `x` lies. -/
def inverseLerp (a b x : α) : α := (x - a) / (b - a)

end SwerveLocalization
