/-!
# The floored modulus

`flooredMod a b` brings `a` into the interval between zero and `b` by adding
multiples of `b`. It is built from a remainder that takes the sign of the
dividend, so it applies to integers of every width and to real angles alike.
On 64-bit words a step may leave the word; `flooredMod64?` then has no value.
-/

namespace SwerveLocalization

/-- The representative of `a` modulo `b` on the side of `b`. -/
def flooredMod {α : Type} [Add α] [Mod α] (a b : α) : α := (a % b + b) % b

/-- Whether an integer fits into a 64-bit word. -/
def fitsInt64 (n : Int) : Bool :=
  decide (Int64.minValue.toInt ≤ n) && decide (n ≤ Int64.maxValue.toInt)

/-- The floored modulus of two 64-bit words, provided that the divisor is not
zero and that the quotient and the sum it needs fit into a word. -/
def flooredMod64? (a b : Int64) : Option Int64 :=
  if b = 0 then none
  else if !fitsInt64 (a.toInt.tdiv b.toInt) then none
  else if !fitsInt64 ((a % b).toInt + b.toInt) then none
  else some (flooredMod a b)

end SwerveLocalization
