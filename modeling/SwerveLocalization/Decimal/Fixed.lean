import SwerveLocalization.Decimal.Rounding

/-!
# Decimal text with a given number of places

The exact value of a number is rounded to nearest at the last place, a half
going to the even digit. A negative number keeps its sign even where its
digits are all zero.
-/

namespace SwerveLocalization.Decimal

/-- The sign in front of a number. -/
def signText : Float.Model.UnpackedFloat.Sign → String
  | .negative => "-"
  | .positive => ""

/-- The digits of `v` with `places` of them after the point. -/
def fixedDigits (places : Nat) (v : Magnitude) : String :=
  let digits := paddedDigits (places + 1) (v.scaleTen places).round
  let whole := digits.take (digits.length - places)
  let fraction := digits.drop (digits.length - places)
  if places = 0 then String.ofList whole
  else String.ofList whole ++ "." ++ String.ofList fraction

/-- A number with `places` digits after the point; `NaN`, `inf` or `-inf` for
what is no finite number. -/
def fixed (places : Nat) (x : Float) : String :=
  match x.toModel.unpack with
  | .notANumber => "NaN"
  | .infinity s => signText s ++ "inf"
  | .zero s => signText s ++ fixedDigits places ⟨0, 1⟩
  | .finite s m e _ => signText s ++ fixedDigits places (.ofDyadic m e)

/-! A half goes to the even digit, and a sign stays in front of zeros. -/

example : fixed 3 0.0625 = "0.062" ∧ fixed 3 0.1875 = "0.188" := by decide +kernel

example : fixed 3 (-0.0001) = "-0.000" ∧ fixed 0 12.0 = "12" := by decide +kernel

end SwerveLocalization.Decimal
