import Zed.Number.Shortest

/-!
# Literals of a script

How a Python script spells numbers and strings.

* A finite number is written in positional notation with the fewest places that read back, so a
  whole number has no point. A negative zero keeps its sign.
* A string stands between double quotes with every backslash doubled. No other character of a Zed
  string needs care, because none is a quote or a line break.
-/

set_option autoImplicit false

namespace Zed.Script

/-- The sign in front of a number. -/
def sign (negative : Bool) : String :=
  if negative then "-" else ""

/-- A number as a script spells it. -/
def number : Binary64 → String
  | .finite negative rank =>
    let shortest := Binary64.shortest rank
    sign negative ++ String.ofList (Binary64.positional shortest.1 shortest.2)
  | .infinite negative => sign negative ++ "inf"
  | .nan => "NaN"

/-- One character inside a string literal. -/
def escaped (c : Char) : List Char :=
  if c = '\\' then ['\\', '\\'] else [c]

/-- A string as a script spells it. -/
def text (body : String) : String :=
  "\"" ++ String.ofList (body.toList.flatMap escaped) ++ "\""

end Zed.Script
