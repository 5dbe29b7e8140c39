import SwerveLocalization.Decimal.Fixed

/-!
# The shortest decimal text that reads back

Of all decimals that are rounded to a given number when they are read, the
shortest are those with the fewest digits, and of these the nearest to the
number is written. An exact tie goes to the larger one. The text is always
positional: it has no exponent, and no point if there is nothing after it.

The decimals that read back as a number form an interval around it. If a grid
of decimals with `n` digits has a point in the interval, one of the two grid
points next to the number lies in it, so only these two are tried, for
`n = 1, 2, …, 17`; seventeen digits always suffice.
-/

namespace SwerveLocalization.Decimal

/-- The numbers that are rounded to one positive binary64 number. All ends
are counted in one unit, `unit`. -/
structure Cell where
  /-- The number itself, in units. -/
  center : Nat
  /-- The lower end, in units. -/
  low : Nat
  /-- The upper end, in units. -/
  high : Nat
  /-- The ends belong to the cell. -/
  closed : Bool
  /-- The size of a unit. -/
  unit : Magnitude

/-- The cell of `mantissa * 2 ^ exponent`. A number is a quarter of a step
away from the lower end where the steps below it are half as long. -/
def Cell.ofDyadic (mantissa : Nat) (exponent : Int) : Cell where
  center := 4 * mantissa
  low := if mantissa = Nat.pow 2 52 ∧ -1074 < exponent then 4 * mantissa - 1 else 4 * mantissa - 2
  high := 4 * mantissa + 2
  closed := mantissa % 2 == 0
  unit := .ofDyadic 1 (exponent - 2)

/-- Whether the decimal `digits * 10 ^ power` lies in the cell. -/
def Cell.contains (c : Cell) (digits : Nat) (power : Int) : Bool :=
  let v := Magnitude.scaleTen ⟨digits, 1⟩ power
  let point := v.num * c.unit.den
  let unit := c.unit.num * v.den
  let low := c.low * unit
  let high := c.high * unit
  if c.closed then decide (low ≤ point) && decide (point ≤ high)
  else decide (low < point) && decide (point < high)

/-- The decimal with the last digit at `10 ^ power` that lies in the cell and
is nearest to its centre, if there is one. -/
def Cell.nearest? (c : Cell) (power : Int) : Option Nat :=
  let v := Magnitude.scaleTen ⟨c.center * c.unit.num, c.unit.den⟩ (-power)
  let below := v.num / v.den
  let remainder := v.num % v.den
  let up := c.contains (below + 1) power && (remainder != 0)
  let down := c.contains below power
  match down, up with
  | true, true => some (if 2 * remainder < v.den then below else below + 1)
  | true, false => some below
  | false, true => some (below + 1)
  | false, false => none

/-- Tries the grids with the last digit at `10 ^ power`, then one place
further right, and so on, `tries` times. -/
def Cell.search (c : Cell) : (tries : Nat) → (power : Int) → Nat × Int
  | 0, power => (0, power)
  | tries + 1, power =>
    match c.nearest? power with
    | some digits => (digits, power)
    | none => c.search tries (power - 1)

/-- The digits of the shortest decimal, and the power of ten of the last. -/
def shortestDigits (mantissa : Nat) (exponent : Int) : Nat × Int :=
  (Cell.ofDyadic mantissa exponent).search 17 (Magnitude.ofDyadic mantissa exponent).decimalExponent

/-- Drops zeros at the end of a list of digits. -/
def dropTrailingZeros (digits : List Char) : List Char :=
  (digits.reverse.dropWhile (· == '0')).reverse

/-- The positional text of `digits * 10 ^ power`. -/
def positional (digits : Nat) (power : Int) : String :=
  let text := paddedDigits ((-power).toNat + 1) (digits * Nat.pow 10 power.toNat)
  let places := (-power).toNat
  let whole := text.take (text.length - places)
  let fraction := dropTrailingZeros (text.drop (text.length - places))
  if fraction.isEmpty then String.ofList whole
  else String.ofList whole ++ "." ++ String.ofList fraction

/-- The shortest text of a number; `NaN`, `inf` or `-inf` for what is no
finite number. -/
def shortest (x : Float) : String :=
  match x.toModel.unpack with
  | .notANumber => "NaN"
  | .infinity s => signText s ++ "inf"
  | .zero s => signText s ++ "0"
  | .finite s m e _ =>
    let (digits, power) := shortestDigits m e
    signText s ++ positional digits power

/-! Large and small numbers are written without an exponent, and an exact tie
goes up. -/

example : shortest 1e21 = "1000000000000000000000" ∧ shortest 1e-7 = "0.0000001" := by
  decide +kernel

example : shortest (0.1 + 0.2) = "0.30000000000000004" ∧ shortest (-0.0) = "-0" := by
  decide +kernel

example : shortest 1125899906842624.25 = "1125899906842624.3" := by decide +kernel

end SwerveLocalization.Decimal
