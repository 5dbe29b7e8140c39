import SwerveLocalization.Decimal.Fixed

/-!
# Decimal text with an exponent

One digit stands before the point and a given number after it; the exact
value is rounded to nearest at the last one, a half going to the even digit.
The exponent has neither a plus sign nor zeros in front.
-/

namespace SwerveLocalization.Decimal

/-- The leading `places + 1` digits of `v` as one natural number, rounded,
and the exponent of the first of them. -/
def leadingDigits (places : Nat) (v : Magnitude) : Nat × Int :=
  let exponent := v.decimalExponent
  let digits := (v.scaleTen (places - exponent)).round
  if digits = Nat.pow 10 (places + 1) then (Nat.pow 10 places, exponent + 1) else (digits, exponent)

/-- The text of the digits `digits`, one before the point and `places` after
it, with their exponent. -/
def scientificDigits (places digits : Nat) (exponent : Int) : String :=
  fixedDigits places ⟨digits, Nat.pow 10 places⟩ ++ "e" ++ toString exponent

/-- A number with `places` digits after the point and an exponent; `NaN`,
`inf` or `-inf` for what is no finite number. -/
def scientific (places : Nat) (x : Float) : String :=
  match x.toModel.unpack with
  | .notANumber => "NaN"
  | .infinity s => signText s ++ "inf"
  | .zero s => signText s ++ scientificDigits places 0 0
  | .finite s m e _ =>
    let (digits, exponent) := leadingDigits places (.ofDyadic m e)
    signText s ++ scientificDigits places digits exponent

/-! All digits of a number stand in the text, and rounding up to a power of
ten moves the point. -/

example : scientific 16 1.25 = "1.2500000000000000e0" := by decide +kernel

example : scientific 16 (-0.001) = "-1.0000000000000000e-3" := by decide +kernel

example : scientific 1 9.96 = "1.0e1" ∧ scientific 1 0.996 = "1.0e0" := by decide +kernel

end SwerveLocalization.Decimal
