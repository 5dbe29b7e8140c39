import SwerveLocalization.Scalar
import SwerveLocalization.Modulus

/-!
# Angles

Angles are radians, counterclockwise. A heading is kept in the half-open
interval from `-π` to `π`, with `π` included, so two headings of one
orientation have one value. Turns and blends take the shorter way round.
-/

namespace SwerveLocalization.Angle

open Scalar

variable {α : Type} [Scalar α]

/-- The value in the interval from `-π` (excluded) to `π` (included) that
differs from `angle` by whole turns. -/
def wrap (angle : α) : α :=
  if -pi < angle ∧ angle ≤ pi then angle
  else
    let fullTurn : α := pi + pi
    let wrapped := flooredMod (angle + pi) fullTurn - pi
    if wrapped ≤ -pi then wrapped + fullTurn else wrapped

/-- The shortest signed turn that takes `current` onto `target`. -/
def turn (target current : α) : α := wrap (target - current)

/-- The heading a fraction `t` of the way along the shorter arc. -/
def blend (start finish t : α) : α := wrap (start + turn finish start * t)

end SwerveLocalization.Angle
