import Zed.Digest
import Zed.Grammar.Program
import Zed.Scope
import Zed.Script.Text
import Zed.Token.Scan

/-!
# Compilation

A source text is cut into tokens, read as a program and checked. A script is written only if nothing
at all was reported. The trace of a compilation names what each phase produced.
-/

set_option autoImplicit false

namespace Zed

/-- How a compilation behaves. -/
structure Options where
  /-- A trace of the phases is wanted. -/
  verbose : Bool := false
  deriving DecidableEq, Repr

/-- The options asked for by the value of an environment variable: `1` asks for a trace. -/
def Options.ofSetting (setting : Option String) : Options :=
  ⟨setting == some "1"⟩

/-- What a compilation gives. -/
structure Compilation where
  /-- The digest of the source. -/
  hash : String
  /-- Nothing was reported. -/
  success : Bool
  /-- The source text. -/
  source : String
  /-- The script; empty unless the compilation succeeded. -/
  output : String
  /-- Everything that was reported. -/
  diagnostics : List Diagnostic
  /-- The name of the program; empty if it was not reached. -/
  programName : String

/-- Why there is no script. -/
structure Failure where
  /-- The name of the program; empty if it was not reached. -/
  programName : String
  /-- Everything that was reported. -/
  diagnostics : List Diagnostic

/-- A failure in words. -/
def Failure.message (f : Failure) : String :=
  let first := (f.diagnostics.head?.map (·.message)).getD "none"
  "failed to compile '" ++ f.programName ++ "': " ++ f.diagnostics.length.repr
    ++ " diagnostic(s), first: " ++ first

namespace Compilation

/-- The faults of a reading; one more says that the tokens ran out. -/
def faults (reading : Reading) : List Diagnostic :=
  reading.diagnostics ++ if reading.incomplete then [.truncated] else []

/-- Everything that is reported about a reading. -/
def reports (reading : Reading) : List Diagnostic :=
  faults reading ++ (reading.program.map (·.undefinedReads)).getD []

/-- The script of a reading; there is none if anything is reported. -/
def script? (reading : Reading) : Option String :=
  if (reports reading).isEmpty then reading.program.map (·.script) else none

/-- Compiles a source text. -/
def ofSource (source : String) : Compilation :=
  let reading := Reading.ofTokens (Token.ofSource source)
  { hash := Digest.ofText source
    success := (reports reading).isEmpty
    source := source
    output := (script? reading).getD ""
    diagnostics := reports reading
    programName := reading.name }

/-- The script, or why there is none. -/
def result (c : Compilation) : Except Failure String :=
  if c.success then .ok c.output else .error ⟨c.programName, c.diagnostics⟩

/-- Every diagnostic with the line of the source that it is about. -/
def excerpts (c : Compilation) : List String :=
  let lines := Text.lines c.source.toList
  c.diagnostics.map (·.excerptFrom lines)

/-! ## Trace -/

/-- A line of a trace. -/
def traceLine (phase detail : String) : String :=
  "zedc: " ++ phase ++ " " ++ detail

/-- What a boolean is called in a trace. -/
def boolName (b : Bool) : String :=
  if b then "true" else "false"

/-- The trace of compiling a source text in `elapsed` milliseconds. -/
def trace (source elapsed : String) : List String :=
  let tokens := Token.ofSource source
  let reading := Reading.ofTokens tokens
  let checked := reading.program.map fun p =>
    traceLine "check" (p.undefinedReads.length.repr ++ " undefined variables")
  let generated := (script? reading).map fun text =>
    traceLine "generate" (text.utf8ByteSize.repr ++ " bytes")
  [traceLine "lex" (tokens.length.repr ++ " tokens"),
    traceLine "parse" ("'" ++ reading.name ++ "' with " ++ reading.diagnostics.length.repr
      ++ " diagnostics" ++ if reading.incomplete then ", incomplete" else "")]
    ++ checked.toList ++ generated.toList
    ++ [traceLine "done" ("success=" ++ boolName (reports reading).isEmpty ++ " in "
      ++ elapsed ++ "ms")]

/-- The trace that the options ask for. -/
def traceWith (options : Options) (source elapsed : String) : List String :=
  if options.verbose then trace source elapsed else []

end Compilation

end Zed
