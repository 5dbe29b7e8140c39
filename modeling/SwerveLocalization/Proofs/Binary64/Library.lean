import SwerveLocalization.Binary64.Arithmetic

/-!
# Mathematical libraries

Arithmetic and square roots are rounded in one way everywhere. Sines, cosines,
directions and exponentials are computed by a mathematical library, and libraries
differ in the last digits. What is proved for the numbers of every library holds
for those that the robot computes with.
-/

namespace SwerveLocalization

/-- The functions that a mathematical library provides. -/
structure MathLibrary where
  sin : Float → Float
  cos : Float → Float
  atan2 : Float → Float → Float
  exp : Float → Float

namespace MathLibrary

/-- The library of the platform. -/
def standard : MathLibrary := ⟨Float.sin, Float.cos, Float.atan2, Float.exp⟩

/-- Binary64 numbers whose elementary functions come from a library. -/
def Number (_ : MathLibrary) : Type := Float

instance (f : MathLibrary) : Scalar f.Number :=
  { Binary64.instScalarFloat with
    sin := f.sin
    cos := f.cos
    atan2 := f.atan2
    exp := f.exp }

/-- On the library of the platform these are the numbers of the robot. -/
theorem scalar_standard : (inferInstance : Scalar standard.Number) = Binary64.instScalarFloat := rfl

/-- A finite angle has a finite sine and a finite cosine. -/
structure Regular (f : MathLibrary) : Prop where
  sin : ∀ x : Float, x.isFinite = true → (f.sin x).isFinite = true
  cos : ∀ x : Float, x.isFinite = true → (f.cos x).isFinite = true

/-- A library of which only what it gives at zero and at one is looked up. -/
def tabulated : MathLibrary where
  sin x := if x == 1 then 0.8414709848078965 else 0
  cos x := if x == 1 then 0.5403023058681398 else 1
  atan2 _ _ := 0
  exp x := if x == 1 then 2.718281828459045 else 1

theorem regular_tabulated : tabulated.Regular := by
  constructor <;> intro x _
  · show (if x == 1 then (0.8414709848078965 : Float) else 0).isFinite = true
    split <;> rfl
  · show (if x == 1 then (0.5403023058681398 : Float) else 1).isFinite = true
    split <;> rfl

end MathLibrary

end SwerveLocalization
