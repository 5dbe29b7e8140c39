import SwerveLocalization.Decimal.Shortest

/-!
# Configuration faults

A setting that cannot work is refused when the part that needs it is built,
so a robot with a broken configuration fails at boot and not while driving.
-/

namespace SwerveLocalization

/-- A setting that cannot work. -/
inductive ConfigurationFault (α : Type)
  | nonFiniteOffset (index : Nat)
  | coincidingOffsets (first second : Nat)
  | singularOffsets
  | nonFinitePoint (key value : α)
  | invalidRange (low high : α)
  | invalidHistory (capacity : Nat) (window : α)
  | invalidTimeConstant (seconds : α)
  | invalidField (length width : α)
deriving DecidableEq

/-- The fault in words. Numbers are written in their shortest form. -/
def ConfigurationFault.message : ConfigurationFault Float → String
  | nonFiniteOffset i => s!"module offset {i} is not finite"
  | coincidingOffsets i j => s!"module offsets {i} and {j} coincide"
  | singularOffsets => "module offsets do not span the chassis plane"
  | nonFinitePoint key value =>
    "calibration point (" ++ Decimal.shortest key ++ ", " ++ Decimal.shortest value
      ++ ") is not finite"
  | invalidRange low high =>
    "range [" ++ Decimal.shortest low ++ ", " ++ Decimal.shortest high
      ++ "] is empty or not finite"
  | invalidHistory capacity window =>
    "history must hold at least 2 entries over a positive window, got " ++ toString capacity
      ++ " over " ++ Decimal.shortest window ++ " s"
  | invalidTimeConstant seconds =>
    "confidence time constant must be positive, got " ++ Decimal.shortest seconds
  | invalidField length width =>
    "field dimensions " ++ Decimal.shortest length ++ " x " ++ Decimal.shortest width
      ++ " must be positive"

end SwerveLocalization
