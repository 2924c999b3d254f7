/-!
# Binary64 numbers

The numbers of Zed are the binary floating-point numbers of 64 bits. Listed in increasing order, the
finite magnitudes are numbered `0, 1, 2, …`, and that number, the *rank*, is also their bit pattern.
Every finite magnitude is a whole number of *units* of `2 ^ (-1074)`, the least positive one, so all
values are compared and combined exactly, as natural numbers.

Rounding takes an exact quotient to the nearest magnitude; of two equally near ones the even rank
wins. A quotient too large for every finite magnitude becomes infinite.
-/

set_option autoImplicit false

namespace Zed

/-- The number of ranks in a binade, the run of magnitudes from a power of two up to the next. -/
abbrev Binary64.binade : Nat := Nat.pow 2 52

/-- The number of finite magnitudes, and the bit pattern of infinity. -/
abbrev Binary64.rankCount : Nat := 2047 * Binary64.binade

/-- A binary64 number. Zero has a sign like every other finite number. -/
inductive Binary64 where
  /-- A finite number, by its sign and the rank of its magnitude. -/
  | finite (negative : Bool) (rank : Fin Binary64.rankCount)
  /-- An infinity. -/
  | infinite (negative : Bool)
  /-- Not a number. -/
  | nan
  deriving DecidableEq, Repr

namespace Binary64

/-- The number of units in the number one. -/
def unitsPerOne : Nat := Nat.pow 2 1074

/-- The magnitude with a given rank, in units. Ranks are one unit apart in the first two binades,
and the distance doubles with every binade after them. -/
def units (rank : Nat) : Nat :=
  if rank < binade then rank
  else (binade + rank % binade) * Nat.pow 2 (rank / binade - 1)

/-! ## Rounding -/

/-- The whole number nearest to `num / den`; a half goes to the even neighbour. -/
def roundHalfEven (num den : Nat) : Nat :=
  let below := num / den
  let twice := 2 * (num % den)
  if twice < den then below
  else if den < twice then below + 1
  else if below % 2 = 0 then below
  else below + 1

/-- The rank nearest to `num / den` units. The quotient keeps 53 binary digits: `dropped` counts
those below them, and a carry out of the kept digits moves on to the next binade by itself. -/
def nearestRank (num den : Nat) : Nat :=
  let dropped := (num / den).log2 - 52
  dropped * binade + roundHalfEven num (den * Nat.pow 2 dropped)

/-- The number nearest to `num / den` units, with a given sign. -/
def ofQuotient (negative : Bool) (num den : Nat) : Binary64 :=
  let rank := nearestRank num den
  if h : rank < rankCount then .finite negative ⟨rank, h⟩ else .infinite negative

/-- Zero with a given sign. -/
def zero (negative : Bool) : Binary64 :=
  .finite negative ⟨0, by decide⟩

/-- The number nearest to a natural number. -/
def ofNat (n : Nat) : Binary64 :=
  ofQuotient false (n * unitsPerOne) 1

/-! ## Bit patterns -/

/-- The weight of the sign in a bit pattern. -/
def signBit : Nat := Nat.pow 2 63

/-- The number with a given pattern of 64 bits. -/
def ofBits (bits : Nat) : Binary64 :=
  let negative := bits / signBit % 2 = 1
  let rank := bits % signBit
  if h : rank < rankCount then .finite negative ⟨rank, h⟩
  else if rank = rankCount then .infinite negative
  else .nan

/-- The bit pattern of a number. All values that are not a number share one pattern. -/
def toBits : Binary64 → Nat
  | .finite negative rank => (if negative then signBit else 0) + rank.val
  | .infinite negative => (if negative then signBit else 0) + rankCount
  | .nan => rankCount + binade / 2

/-! ## Predicates -/

/-- The number is finite. -/
def isFinite : Binary64 → Bool
  | .finite _ _ => true
  | _ => false

/-- The number is a zero of either sign. -/
def isZero : Binary64 → Bool
  | .finite _ rank => rank.val = 0
  | _ => false

/-- The number is finite and has no fraction. -/
def isWhole : Binary64 → Bool
  | .finite _ rank => units rank % unitsPerOne = 0
  | _ => false

/-- Equality as numbers: the zeros are equal, and what is not a number equals nothing. -/
def numEq : Binary64 → Binary64 → Bool
  | .finite s a, .finite t b => a = b && (s = t || a.val = 0)
  | .infinite s, .infinite t => s = t
  | _, _ => false

end Binary64

end Zed
