import Zed.Text.Lines
import Zed.Token.Basic

/-!
# Diagnostics

A diagnostic is data: what went wrong, in words, and where. Every phase collects diagnostics and
none stops on the first one. `Diagnostic.excerpt` shows one together with the line it is about.
-/

set_option autoImplicit false

namespace Zed

/-- The sort of a diagnostic. -/
inductive Diagnostic.Kind where
  /-- The tokens ran out before the program was complete. -/
  | truncated
  /-- A token stands where the grammar does not allow it. -/
  | malformed
  /-- A variable is read where nothing defines it. -/
  | undefinedRead
  deriving DecidableEq, Repr

/-- A message about a source text. -/
structure Diagnostic where
  /-- Its sort. -/
  kind : Diagnostic.Kind
  /-- Its wording. -/
  message : String
  /-- The place it is about, if it has one. -/
  position : Option Position
  deriving DecidableEq, Repr

namespace Diagnostic

/-- The tokens ran out. -/
def truncated : Diagnostic :=
  ⟨.truncated, "Unexpected end of file.", none⟩

/-- The place of a message, in words. -/
def place (p : Position) : String :=
  " at line " ++ p.line.repr ++ " char " ++ p.column.repr ++ "."

/-- A fault at a place, described by `fault`. -/
def malformed (fault : String) (p : Position) : Diagnostic :=
  ⟨.malformed, fault ++ place p, some p⟩

/-- The token `found` stands where `wanted` should. -/
def misplaced (wanted : String) (found : Token) : Diagnostic :=
  malformed ("Expected " ++ wanted ++ " instead of '" ++ found.lexeme ++ "'") found.position

/-- The variable `name` is read at a place where nothing defines it. -/
def undefinedRead (name : String) (p : Position) : Diagnostic :=
  ⟨.undefinedRead, "Undefined variable '" ++ name ++ "'" ++ place p, some p⟩

/-- A run of spaces. -/
def spaces (count : Nat) : String :=
  String.ofList (List.replicate count ' ')

/-- A numbered source line between two gutter rows, with a caret under its column. -/
def pointer (line : List Char) (p : Position) : String :=
  let gutter := spaces p.line.repr.length
  gutter ++ " |\n" ++ p.line.repr ++ " | " ++ String.ofList line ++ "\n"
    ++ gutter ++ " | " ++ spaces p.column ++ "^\n"

/-- The message on a line of its own, followed by the one of `lines` that it is about, if it has a
place among them. Line zero counts as the first. -/
def excerptFrom (lines : List (List Char)) (d : Diagnostic) : String :=
  let shown := d.position.bind fun p => lines[p.line - 1]?.map fun line => pointer line p
  "error: " ++ d.message ++ "\n" ++ shown.getD ""

/-- A diagnostic with the line of the source that it is about. -/
def excerpt (d : Diagnostic) (source : String) : String :=
  d.excerptFrom (Text.lines source.toList)

end Diagnostic

end Zed
