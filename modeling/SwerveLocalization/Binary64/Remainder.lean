/-!
# The exact remainder of two binary64 numbers

`remainder x y` is `x - n * y`, where `n` is the quotient `x / y` cut off
toward zero. The result has the sign of `x`, is smaller than `y` in
magnitude, and is always representable, so nothing is rounded. Both operands
are brought to a common power of two, where the remainder is the one of
natural numbers.
-/

namespace SwerveLocalization.Binary64

/-- The number `± mantissa * 2 ^ exponent`, rounded to nearest. -/
def ofDyadic (sign : Float.Model.UnpackedFloat.Sign) (mantissa : Nat) (exponent : Int) : Float :=
  Float.ofModel <| Float.Model.pack <|
    Float.Model.UnpackedFloat.round Float.Model.Format.binary64 sign mantissa exponent

/-- The canonical NaN. -/
def nan : Float := Float.ofModel (Float.Model.pack .notANumber)

/-- The remainder of `x` by `y` with the sign of `x`. It is NaN when `x` is
infinite or `y` is zero, and `x` itself when `y` is infinite. -/
def remainder (x y : Float) : Float :=
  match x.toModel.unpack, y.toModel.unpack with
  | .notANumber, _ => nan
  | _, .notANumber => nan
  | .infinity _, _ => nan
  | _, .zero _ => nan
  | .zero _, _ => x
  | _, .infinity _ => x
  | .finite sign m e _, .finite _ n f _ =>
    let common := min e f
    ofDyadic sign ((m <<< (e - common).toNat) % (n <<< (f - common).toNat)) common

/-! The remainder is exact for operands of any size, and it takes the sign of
the first one, also where it is zero. -/

example : remainder 1e300 7.0 = 1.0 ∧ remainder 5.5 (-2.0) = 1.5 := by decide +kernel

example : (remainder (-4.0) 2.0).toBits = (-0.0 : Float).toBits := by decide +kernel

end SwerveLocalization.Binary64
