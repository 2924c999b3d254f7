import Zed.Number.Binary64

/-!
# The shortest decimal that reads back

A finite magnitude is written with the fewest decimal places for which some decimal rounds to it.
With that many places at most two decimals come into question, the last one not above the
magnitude and the first one above it. If both round to it the nearer one is taken, and the upper
one of two equally near.

A whole magnitude needs no places and is written exactly.
-/

set_option autoImplicit false

namespace Zed.Binary64

/-- The decimal `coefficient / 10 ^ places` rounds to the magnitude with rank `rank`: it lies
between the middles of the gaps below and above, or on one of them if the rank is even. -/
def isNearest (rank coefficient places : Nat) : Bool :=
  let low := (units (rank - 1) + units rank) * Nat.pow 10 places
  let high := (units rank + units (rank + 1)) * Nat.pow 10 places
  let point := coefficient * (2 * unitsPerOne)
  if rank % 2 = 0 then low ≤ point && point ≤ high else low < point && point < high

/-- The coefficient of the best decimal with a given number of places that rounds
to the magnitude. -/
def coefficient? (rank places : Nat) : Option Nat :=
  let scaled := units rank * Nat.pow 10 places
  let below := scaled / unitsPerOne
  let nearerBelow := 2 * (scaled % unitsPerOne) < unitsPerOne
  match isNearest rank below places, isNearest rank (below + 1) places with
  | true, true => some (if nearerBelow then below else below + 1)
  | true, false => some below
  | false, true => some (below + 1)
  | false, false => none

/-- The coefficient and the number of places of the shortest decimal that rounds to the magnitude.
With 1074 places every magnitude is written exactly. -/
def shortest (rank : Nat) : Nat × Nat :=
  ((List.range 1075).findSome? fun places =>
    (coefficient? rank places).map fun coefficient => (coefficient, places)).getD (0, 0)

/-- A decimal in positional notation: the whole part, and after a point its places, if
it has any. -/
def positional (coefficient places : Nat) : List Char :=
  let whole := Nat.toDigits 10 (coefficient / Nat.pow 10 places)
  if places = 0 then whole
  else whole ++ '.' :: (Nat.toDigits 10 (coefficient % Nat.pow 10 places)).leftpad places '0'

end Zed.Binary64
