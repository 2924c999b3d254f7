import Zed.Number.Binary64

/-!
# Decimal numerals

A numeral is an optional sign, digits with at most one point among, before or after them, and an
optional power of ten. It denotes the binary64 number nearest to its exact value. A numeral whose
value is too large denotes no finite number.
-/

set_option autoImplicit false

namespace Zed

/-- A decimal numeral: a signed coefficient times a power of ten. -/
structure Decimal where
  /-- The numeral begins with a minus sign. -/
  negative : Bool
  /-- The digits of the coefficient, leading zeros included. -/
  digits : List Char
  /-- The exponent of ten. -/
  exponent : Int
  deriving DecidableEq, Repr

namespace Decimal

/-- Takes a sign off the front; without one a numeral is positive. -/
def splitSign : List Char → Bool × List Char
  | '-' :: cs => (true, cs)
  | '+' :: cs => (false, cs)
  | cs => (false, cs)

/-- The size of an exponent. Once it has reached `65536`, out of all range, further digits leave it
as it is. -/
def exponentSize (digits : List Char) : Nat :=
  digits.foldl (fun size c => if size < 65536 then Nat.ofDigitChars 10 [c] size else size) 0

/-- The exponent part of a numeral: nothing, or the letter `e` and a whole number. -/
def exponent? : List Char → Option Int
  | [] => some 0
  | c :: cs =>
    let (negative, digits) := splitSign cs
    if (c = 'e' ∨ c = 'E') ∧ digits ≠ [] ∧ digits.all Char.isDigit then
      let size : Int := exponentSize digits
      some (if negative then -size else size)
    else none

/-- Reads a whole text as a numeral. -/
def ofChars? (cs : List Char) : Option Decimal :=
  let (negative, cs) := splitSign cs
  let whole := cs.takeWhile Char.isDigit
  let afterWhole := cs.dropWhile Char.isDigit
  let (fraction, afterFraction) := match afterWhole with
    | '.' :: more => (more.takeWhile Char.isDigit, more.dropWhile Char.isDigit)
    | _ => ([], afterWhole)
  if whole ++ fraction = [] then none
  else (exponent? afterFraction).map fun exponent =>
    ⟨negative, whole ++ fraction, exponent - fraction.length⟩

/-- The binary64 number nearest to a numeral. An exponent above 310 makes every positive coefficient
too large, and one that exceeds the number of digits by more than 330 below zero makes it vanish. -/
def toBinary64 (d : Decimal) : Binary64 :=
  let coefficient := Nat.ofDigitChars 10 d.digits 0
  if coefficient = 0 then .zero d.negative
  else if 310 < d.exponent then .infinite d.negative
  else if d.exponent < -(d.digits.length + 330 : Int) then .zero d.negative
  else match d.exponent with
    | .ofNat e => .ofQuotient d.negative (coefficient * Nat.pow 10 e * Binary64.unitsPerOne) 1
    | .negSucc e => .ofQuotient d.negative (coefficient * Binary64.unitsPerOne) (Nat.pow 10 (e + 1))

end Decimal

/-- The finite number that a spelling denotes, if it is a numeral and denotes one. -/
def Binary64.ofSpelling? (spelling : String) : Option Binary64 :=
  (Decimal.ofChars? spelling.toList).bind fun d =>
    if d.toBinary64.isFinite then some d.toBinary64 else none

end Zed
