import Zed.Number.Arithmetic

/-!
# Counting loops with fractions

A loop whose bounds and step are whole numbers counts in whole numbers. For any other loop the
number of passes is fixed beforehand, and each pass computes the counter from its own number,
rounded to the decimal places of the start and the step.
-/

set_option autoImplicit false

namespace Zed.Script

/-- What a quotient may fall short of a whole number by, and still count as that number: `1e-9`. -/
def tolerance : Binary64 :=
  .ofQuotient false Binary64.unitsPerOne (Nat.pow 10 9)

/-- A number of steps as an unsigned integer of 64 bits. The largest one stands for all
that are larger. -/
def saturate (steps : Nat) : UInt64 :=
  .ofNat (min steps (UInt64.size - 1))

/-- One pass more than there are whole steps, none if their number is negative. What is not a number
counts as zero steps. The addition is one of 64 bits: from the largest number of steps it wraps
around to zero passes. -/
def passesOfSteps : Binary64 → Nat
  | .finite negative rank =>
    let steps := Binary64.floor negative rank
    if steps < 0 then 0 else (saturate steps.toNat + 1).toNat
  | .infinite true => 0
  | .infinite false => (saturate UInt64.size + 1).toNat
  | .nan => 1

/-- The number of passes of a loop from `start` to `stop`, both included, in steps of `step`. -/
def passes (start stop step : Binary64) : Nat :=
  passesOfSteps ((stop - start) / step + tolerance)

/-- Rounding to a number of decimal places gives the number back. -/
def hasPlaces (x : Binary64) (places : Nat) : Bool :=
  let scale := Binary64.ofNat (Nat.pow 10 places)
  Binary64.numEq ((x * scale).round / scale) x

/-- The least number of decimal places that keeps a number, at most fifteen. -/
def places (x : Binary64) : Nat :=
  ((List.range 15).find? (hasPlaces x)).getD 15

end Zed.Script
