import Zed.Diagnostic

/-!
# What the grammar expects

Each place of the grammar where a token can be refused says what it wanted there. The wording of all
of them is in one function.
-/

set_option autoImplicit false

namespace Zed

/-- What should have stood in the place of a refused token. -/
inductive Expectation where
  | keyword (word : Keyword)
  | symbol (sign : Symbol)
  | termSeparator
  | programName
  | var
  | term
  | literal
  | number
  | finiteNumber
  | nonzeroStep
  | relation
  | statement
  | endOfProgram
  deriving DecidableEq, Repr

namespace Expectation

/-- The words that name what was expected. -/
def wording : Expectation → String
  | keyword word => "'" ++ word.spelling ++ "'"
  | symbol sign => "'" ++ sign.spelling ++ "'"
  | termSeparator => "'+' or ']'"
  | programName => "a program identifier"
  | var => "a variable"
  | term => "a variable, string or number"
  | literal => "a string or number"
  | number => "a number"
  | finiteNumber => "a finite number"
  | nonzeroStep => "a non-zero step"
  | relation => "a logical or relational operator"
  | statement => "a statement"
  | endOfProgram => "the end of the program"

/-- The diagnostic that blames the token `found`. -/
def blame (wanted : Expectation) (found : Token) : Diagnostic :=
  .misplaced wanted.wording found

end Expectation

end Zed
