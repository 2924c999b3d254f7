import Zed.Number.Binary64

/-!
# Arithmetic on binary64 numbers

Each operation computes its exact result and rounds once. Operations that have no result, such as
the difference of equal infinities or zero divided by zero, give `nan`, and `nan` spreads.
-/

set_option autoImplicit false

namespace Zed.Binary64

/-- The value of a finite number in units, with its sign. -/
def signedUnits (negative : Bool) (rank : Nat) : Int :=
  if negative then -(units rank : Int) else units rank

/-- The number with the opposite sign. -/
def neg : Binary64 → Binary64
  | .finite s a => .finite (!s) a
  | .infinite s => .infinite (!s)
  | .nan => .nan

/-- The sum. An exact zero is negative only if both summands are negative zeros. -/
def add : Binary64 → Binary64 → Binary64
  | .finite s a, .finite t b =>
    let sum := signedUnits s a + signedUnits t b
    if sum = 0 then zero (s && t) else ofQuotient (sum < 0) sum.natAbs 1
  | .infinite s, .infinite t => if s = t then .infinite s else .nan
  | .infinite s, .finite _ _ => .infinite s
  | .finite _ _, .infinite t => .infinite t
  | _, _ => .nan

/-- The difference. -/
def sub (x y : Binary64) : Binary64 :=
  add x (neg y)

/-- The product. -/
def mul : Binary64 → Binary64 → Binary64
  | .finite s a, .finite t b => ofQuotient (s != t) (units a * units b) unitsPerOne
  | .infinite s, .infinite t => .infinite (s != t)
  | .infinite s, .finite t b => if b.val = 0 then .nan else .infinite (s != t)
  | .finite s a, .infinite t => if a.val = 0 then .nan else .infinite (s != t)
  | _, _ => .nan

/-- The quotient. -/
def div : Binary64 → Binary64 → Binary64
  | .finite s a, .finite t b =>
    if b.val = 0 then if a.val = 0 then .nan else .infinite (s != t)
    else ofQuotient (s != t) (units a * unitsPerOne) (units b)
  | .infinite s, .finite t _ => .infinite (s != t)
  | .finite s _, .infinite t => zero (s != t)
  | _, _ => .nan

instance : Neg Binary64 := ⟨neg⟩
instance : Add Binary64 := ⟨add⟩
instance : Sub Binary64 := ⟨sub⟩
instance : Mul Binary64 := ⟨mul⟩
instance : Div Binary64 := ⟨div⟩

/-- The greatest integer that is not above a finite number. -/
def floor (negative : Bool) (rank : Nat) : Int :=
  signedUnits negative rank / (unitsPerOne : Int)

/-- The nearest whole number; a half goes away from zero. -/
def round : Binary64 → Binary64
  | .finite s a =>
    let whole := (2 * units a + unitsPerOne) / (2 * unitsPerOne)
    ofQuotient s (whole * unitsPerOne) 1
  | x => x

end Zed.Binary64
