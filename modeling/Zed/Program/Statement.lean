import Zed.Diagnostic
import Zed.Program.Condition

/-!
# Statements, blocks and programs

A block keeps, beside its statements, the diagnostics that were raised while it was read, those of
the blocks inside it included. A program read without a fault has none in any block.
-/

set_option autoImplicit false

namespace Zed

/-- What an assignment assigns: a term, or a line of input after a prompt. -/
inductive Value where
  | term (term : Term)
  | input (prompt : List Term)
  deriving DecidableEq, Repr

mutual
/-- A statement. -/
inductive Statement where
  /-- Assigns a value, or with an operator the result of applying it to the old and
  the given value. -/
  | assign (target : Variable) (value : Value) (operator : Option Arithmetic)
  /-- Prints terms on a line. -/
  | output (terms : List Term)
  /-- Tests before each pass and goes on while the condition holds. -/
  | whileLoop (condition : Condition) (body : Block)
  /-- Tests after each pass and stops when the condition holds. -/
  | untilLoop (body : Block) (condition : Condition)
  /-- Counts from `start` to `stop`, both included, in steps of `step`. -/
  | forLoop (counter : Variable) (start stop step : Binary64) (body : Block)
  /-- Runs the first branch whose condition holds; a branch without a condition always runs. -/
  | choice (branches : List (Option Condition × Block))
  /-- Runs the first arm whose literal equals the variable. -/
  | switch (subject : Variable) (arms : List (Literal × Block))
/-- A sequence of statements with the diagnostics raised while it was read. -/
inductive Block where
  | mk (statements : List Statement) (diagnostics : List Diagnostic)
end

namespace Block

/-- The statements of a block. -/
def statements : Block → List Statement
  | mk ss _ => ss

/-- The diagnostics raised while the block was read. -/
def diagnostics : Block → List Diagnostic
  | mk _ ds => ds

end Block

/-- A named block. -/
structure Program where
  /-- The name of the program. -/
  name : String
  /-- Its statements. -/
  body : Block

end Zed
