import Zed.Number.Binary64
import Zed.Position
import Zed.Token.Symbol

/-!
# Terms

The leaves of a program: variables with the place they stand at, string literals and numbers.
-/

set_option autoImplicit false

namespace Zed

/-- An occurrence of a variable. -/
structure Variable where
  /-- The name of the variable. -/
  name : String
  /-- The place of the occurrence. -/
  position : Position
  deriving DecidableEq, Repr

/-- A constant. -/
inductive Literal where
  | text (body : String)
  | number (value : Binary64)
  deriving DecidableEq, Repr

/-- A value that needs no computation. -/
inductive Term where
  | var (occurrence : Variable)
  | text (body : String)
  | number (value : Binary64)
  deriving DecidableEq, Repr

/-- An arithmetic operator, as it follows the operand of an assignment. -/
inductive Arithmetic where
  | add | sub | mul | div | rem
  deriving DecidableEq, Repr

namespace Arithmetic

/-- The operator a symbol stands for, if it is an arithmetic one. -/
def ofSymbol? : Symbol → Option Arithmetic
  | .plus => some add
  | .minus => some sub
  | .times => some mul
  | .slash => some div
  | .percent => some rem
  | _ => none

/-- The symbol of the operator. -/
def symbol : Arithmetic → Symbol
  | add => .plus
  | sub => .minus
  | mul => .times
  | div => .slash
  | rem => .percent

end Arithmetic

end Zed
