import SwerveLocalization.Scalar
import SwerveLocalization.Binary64.Remainder
import SwerveLocalization.Binary64.TotalOrder

/-!
# Binary64 numbers as scalars

The numbers a robot computes with: each operation is rounded to nearest,
ties to even, and `%` is the exact remainder.
-/

namespace SwerveLocalization.Binary64

instance : Scalar Float where
  zero := 0
  one := 1
  mod := remainder
  decidableLT := Float.decLt
  decidableLE := Float.decLe
  ofNat := Float.ofNat
  isNaN := Float.isNaN
  isFinite := Float.isFinite
  totalLe := totalLe
  sqrt := Float.sqrt
  sin := Float.sin
  cos := Float.cos
  atan2 := Float.atan2
  exp := Float.exp
  pi := 3.141592653589793
  infinity := Float.ofModel (Float.Model.pack (.infinity .positive))

end SwerveLocalization.Binary64
