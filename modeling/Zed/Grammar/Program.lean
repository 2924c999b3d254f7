import Zed.Grammar.Block

/-!
# Reading a program

A program is `PROG`, its name, and its statements up to `ENDPROG`. A fault in the first two tokens
ends the reading at once. After them faults are reported and recovered from, and a program comes out
unless the tokens run out. A token after `ENDPROG` is one more fault.
-/

set_option autoImplicit false

namespace Zed

/-- What reading a list of tokens as a program gives. -/
structure Reading where
  /-- The program, unless its beginning is malformed or its end is missing. -/
  program : Option Program
  /-- The name of the program; empty if it was not reached. -/
  name : String
  /-- All faults, in the order of the tokens they blame. -/
  diagnostics : List Diagnostic
  /-- The tokens ran out before the program was complete. -/
  incomplete : Bool

/-- The beginning of a program. -/
def Rule.header : Rule String := do
  keyword .PROG
  programName

namespace Reading

/-- The fault of a token after the end of a program. -/
def trailing : List Token → List Diagnostic
  | [] => []
  | t :: _ => [Expectation.blame .endOfProgram t]

/-- Reads the tokens after the name of a program. -/
def ofBody (name : String) (tokens : List Token) : Reading :=
  match Rule.block (tokens.length + 1) .ENDPROG false tokens with
  | .done body rest => ⟨some ⟨name, body⟩, name, body.diagnostics ++ trailing rest, false⟩
  | .rejected report _ => ⟨none, name, report, true⟩
  | .ended report => ⟨none, name, report, true⟩
  | .exhausted => ⟨none, name, [], true⟩

/-- Reads a list of tokens as a program. -/
def ofTokens (tokens : List Token) : Reading :=
  match Rule.header tokens with
  | .done name rest => ofBody name rest
  | .rejected report _ => ⟨none, "", report, false⟩
  | .ended report => ⟨none, "", report, true⟩
  | .exhausted => ⟨none, "", [], true⟩

end Reading

end Zed
