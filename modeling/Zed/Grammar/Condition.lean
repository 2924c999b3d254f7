import Zed.Grammar.Term
import Zed.Program.Condition

/-!
# Rules for conditions

A condition is written with its operator in front: an optional `!`, the operator, two operands.
Where an operand is due, a `!` or an operator starts a condition and anything else must be a term.
-/

set_option autoImplicit false

namespace Zed

/-- The logical or relational operator that a token is, if it is one. -/
def Token.relation? (t : Token) : Option Relation :=
  match t.kind with
  | .symbol sign => Relation.ofSymbol? sign
  | _ => none

/-- A condition starts at this token. -/
def Token.startsCondition (t : Token) : Bool :=
  t.isSymbol .bang || t.relation?.isSome

namespace Rule

/-- A logical or relational operator. -/
def relation : Rule Relation :=
  take fun t => match t.relation? with
    | some relation => .ok relation
    | none => .error .relation

/-- An operand, where `condition` reads a condition. -/
def operand (condition : Rule Condition) : Rule Operand := do
  let t ← current
  if t.startsCondition then
    let inner ← condition
    return inner.toOperand
  else
    let leaf ← term
    return .term leaf

/-- A condition. There is one unit of `fuel` for each condition inside another. -/
def condition : (fuel : Nat) → Rule Condition
  | 0 => spent
  | fuel + 1 => do
    let negated ← skipSymbol .bang
    let operator ← relation
    let left ← operand (condition fuel)
    let right ← operand (condition fuel)
    return ⟨negated, operator, left, right⟩

end Rule

end Zed
