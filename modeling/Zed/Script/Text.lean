import Zed.Script.Body
import Zed.Script.Preamble

/-!
# The text of a script

A script is the preamble, one function with the body of the program, and a call of that function.
The function has the name of the program, with an underscore after it if the name is taken.
-/

set_option autoImplicit false

namespace Zed.Script

/-- The words that Python reserves. -/
def reservedWords : List String :=
  ["False", "None", "True", "and", "as", "assert", "async", "await", "break", "class",
    "continue", "def", "del", "elif", "else", "except", "finally", "for", "from", "global",
    "if", "import", "in", "is", "lambda", "nonlocal", "not", "or", "pass", "raise", "return",
    "try", "while", "with", "yield"]

/-- Names of functions and modules that the function of a program must leave alone. -/
def usedNames : List String :=
  ["print", "input", "int", "float", "str", "len", "max", "range", "isinstance", "math",
    "zedInput", "zedAssign", "ValueError"]

/-- The name of the function of a program. -/
def functionName (program : String) : String :=
  if reservedWords.contains program || usedNames.contains program then program ++ "_" else program

/-- The lines of the function of a program. -/
def functionLines (p : Program) : List Line :=
  ⟨0, "def " ++ functionName p.name ++ "():"⟩ :: Item.linesOfList (suiteOfBlock p.body) 1

/-- The lines of the script of a program. -/
def lines (p : Program) : List Line :=
  preamble ++ blank :: blank :: functionLines p
    ++ [blank, blank, ⟨0, functionName p.name ++ "()"⟩]

end Zed.Script

namespace Zed

/-- The script of a program, which Python can run. -/
def Program.script (p : Program) : String :=
  String.ofList ((Script.lines p).flatMap Script.Line.chars)

end Zed
