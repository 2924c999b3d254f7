import Zed.Program.Statement
import Zed.Script.Literal

/-!
# Expressions of a script

Terms, conditions and values as a Python script spells them. A condition is always in parentheses,
so it stays one operand wherever it stands.
-/

set_option autoImplicit false

namespace Zed.Script

/-- A term. -/
def term : Term → String
  | .var v => v.name
  | .text body => text body
  | .number value => number value

/-- A constant. -/
def literal : Literal → String
  | .text body => text body
  | .number value => number value

/-- A logical operator is a word, a relational one keeps its sign. -/
def relation : Relation → String
  | .and => "and"
  | .or => "or"
  | .atLeast => ">="
  | .atMost => "<="
  | .greater => ">"
  | .less => "<"
  | .equal => "=="

/-- Two operands around an operator, negated if need be. -/
def test (negated : Bool) (left operator right : String) : String :=
  let plain := "(" ++ left ++ " " ++ operator ++ " " ++ right ++ ")"
  if negated then "(not " ++ plain ++ ")" else plain

/-- An operand of a condition. -/
def operand : Operand → String
  | .term t => term t
  | .condition negated r left right => test negated (operand left) (relation r) (operand right)

/-- A condition. -/
def condition (c : Condition) : String :=
  operand c.toOperand

/-- The prompt of an input: its terms as strings, joined; an empty one is an empty string. -/
def prompt : List Term → String
  | [] => "''"
  | [t] => "str(" ++ term t ++ ")"
  | t :: ts => "str(" ++ term t ++ ") + " ++ prompt ts

/-- The value of an assignment. -/
def value : Value → String
  | .term t => term t
  | .input ts => "zedInput(" ++ prompt ts ++ ")"

/-- The arguments of a call that prints terms without anything between them. -/
def printArguments : List Term → String
  | [] => "sep=''"
  | t :: ts => term t ++ ", " ++ printArguments ts

end Zed.Script
