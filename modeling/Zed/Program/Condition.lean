import Zed.Program.Term

/-!
# Conditions

A condition joins two operands by a logical or relational operator and may be negated. An operand is
a term or again a condition, so conditions nest to any depth.
-/

set_option autoImplicit false

namespace Zed

/-- A logical or relational operator. -/
inductive Relation where
  | and | or | atLeast | atMost | greater | less | equal
  deriving DecidableEq, Repr

namespace Relation

/-- The operator a symbol stands for, if it is a logical or relational one. -/
def ofSymbol? : Symbol → Option Relation
  | .and => some and
  | .or => some or
  | .atLeast => some atLeast
  | .atMost => some atMost
  | .greater => some greater
  | .less => some less
  | .equal => some equal
  | _ => none

/-- The symbol of the operator. -/
def symbol : Relation → Symbol
  | and => .and
  | or => .or
  | atLeast => .atLeast
  | atMost => .atMost
  | greater => .greater
  | less => .less
  | equal => .equal

end Relation

/-- A side of a condition. -/
inductive Operand where
  | term (term : Term)
  | condition (negated : Bool) (relation : Relation) (left right : Operand)
  deriving DecidableEq, Repr

/-- Two operands joined by a relation; `negated` turns the whole around. -/
structure Condition where
  /-- The condition holds exactly if the relation does not. -/
  negated : Bool
  /-- The operator. -/
  relation : Relation
  /-- The first operand. -/
  left : Operand
  /-- The second operand. -/
  right : Operand
  deriving DecidableEq, Repr

/-- A condition as a side of another one. -/
def Condition.toOperand (c : Condition) : Operand :=
  .condition c.negated c.relation c.left c.right

end Zed
