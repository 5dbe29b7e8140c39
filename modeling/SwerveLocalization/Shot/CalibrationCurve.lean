import SwerveLocalization.ConfigurationFault
import SwerveLocalization.Line

/-!
# Calibration curves

A curve through measured points, straight between neighbours and constant
beyond the first and the last. The points are kept in ascending order of
their keys; a point with a key that is already there replaces the old one.
-/

namespace SwerveLocalization

/-- A point of a calibration curve. -/
structure CalibrationPoint (α : Type) where
  key : α
  value : α
deriving DecidableEq

/-- A piecewise straight curve. -/
structure CalibrationCurve (α : Type) where
  points : List (CalibrationPoint α)
deriving DecidableEq

namespace CalibrationCurve

variable {α : Type} [Scalar α]

/-- The curve without points. -/
def empty : CalibrationCurve α := ⟨[]⟩

/-- Whether the curve has no point. -/
def isEmpty (c : CalibrationCurve α) : Bool := c.points.isEmpty

/-- Puts a point in its place among ascending points. -/
def place (p : CalibrationPoint α) : List (CalibrationPoint α) → List (CalibrationPoint α)
  | [] => [p]
  | q :: rest =>
    if Scalar.totalLe p.key q.key then
      if Scalar.totalLe q.key p.key then ⟨q.key, p.value⟩ :: rest else p :: q :: rest
    else q :: place p rest

/-- Adds a point, or replaces the one with the same key. A point that is not
finite is refused. -/
def insert (c : CalibrationCurve α) (p : CalibrationPoint α) :
    Except (ConfigurationFault α) (CalibrationCurve α) :=
  if Scalar.isFinite p.key && Scalar.isFinite p.value then .ok ⟨place p c.points⟩
  else .error (.nonFinitePoint p.key p.value)

/-- The curve through points that come in any order. -/
def ofPoints (ps : List (CalibrationPoint α)) :
    Except (ConfigurationFault α) (CalibrationCurve α) :=
  ps.foldlM insert empty

/-- The value at `key` on the part of a curve that starts in `p`, where `key`
is not before `p`. -/
def walk (key : α) (p : CalibrationPoint α) : List (CalibrationPoint α) → α
  | [] => p.value
  | q :: rest =>
    if q.key ≤ key then walk key q rest
    else if key == p.key then p.value
    else lerp p.value q.value (inverseLerp p.key q.key key)

/-- The value of the curve at `key`. A curve without points has none, and a
NaN has no place on any curve. -/
def get? (c : CalibrationCurve α) (key : α) : Option α :=
  match c.points with
  | [] => none
  | first :: rest =>
    if Scalar.isNaN key then none
    else if key ≤ first.key then some first.value
    else some (walk key first rest)

end CalibrationCurve

end SwerveLocalization
