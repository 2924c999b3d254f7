import Zed.Script.Outline

/-!
# The preamble of a script

The fixed lines that every script begins with: one import, the function that reads a line of
input as a number if it is one, and the function that applies an operator to strings and
numbers in every pairing.
-/

set_option autoImplicit false

namespace Zed.Script

/-- An empty line. -/
def blank : Line :=
  ⟨0, ""⟩

/-- Reads a line as a whole number, as a number with a fraction, or as text, in that order. -/
def inputFunction : List Line :=
  [⟨0, "def zedInput(prompt):"⟩,
    ⟨1, "text = input(prompt)"⟩,
    ⟨1, "try:"⟩,
    ⟨2, "return int(text)"⟩,
    ⟨1, "except ValueError:"⟩,
    ⟨2, "try:"⟩,
    ⟨3, "return float(text)"⟩,
    ⟨2, "except ValueError:"⟩,
    ⟨3, "return text"⟩]

/-- Applies an operator to a string and a string. -/
def textWithText : List Line :=
  [⟨2, "if isinstance(value, str):"⟩,
    ⟨3, "if operator == '+':"⟩,
    ⟨4, "return target + value"⟩,
    ⟨3, "if operator == '-':"⟩,
    ⟨4, "return target.replace(value, '')"⟩,
    ⟨3, "if operator == '*':"⟩,
    ⟨4, "return value.join(target)"⟩,
    ⟨3, "if operator == '/':"⟩,
    ⟨4, "return target.replace(value, '', 1)"⟩,
    ⟨3, "if operator == '%':"⟩,
    ⟨4, "if len(value) == 0:"⟩,
    ⟨5, "return math.nan"⟩,
    ⟨4, "return target[len(target) - len(target) % len(value):]"⟩]

/-- Applies an operator to a string and a number. -/
def textWithNumber : List Line :=
  [⟨2, "else:"⟩,
    ⟨3, "count = int(value)"⟩,
    ⟨3, "if operator == '+':"⟩,
    ⟨4, "return target + ' ' * count"⟩,
    ⟨3, "if operator == '-':"⟩,
    ⟨4, "return target[:max(len(target) - count, 0)]"⟩,
    ⟨3, "if operator == '*':"⟩,
    ⟨4, "return target * count"⟩,
    ⟨3, "if operator == '/':"⟩,
    ⟨4, "if value == 0:"⟩,
    ⟨5, "return math.nan"⟩,
    ⟨4, "return target[:int(len(target) / value)]"⟩,
    ⟨3, "if operator == '%':"⟩,
    ⟨4, "if count == 0:"⟩,
    ⟨5, "return math.nan"⟩,
    ⟨4, "return target[len(target) - len(target) % count:]"⟩]

/-- Applies an operator to numbers; a string counts by its length. -/
def numberWithAny : List Line :=
  [⟨1, "if isinstance(value, str):"⟩,
    ⟨2, "value = len(value)"⟩,
    ⟨1, "if operator == '+':"⟩,
    ⟨2, "return target + value"⟩,
    ⟨1, "if operator == '-':"⟩,
    ⟨2, "return target - value"⟩,
    ⟨1, "if operator == '*':"⟩,
    ⟨2, "return target * value"⟩,
    ⟨1, "if operator == '/':"⟩,
    ⟨2, "if value == 0:"⟩,
    ⟨3, "return math.nan"⟩,
    ⟨2, "return target / value"⟩,
    ⟨1, "if operator == '%':"⟩,
    ⟨2, "if value == 0:"⟩,
    ⟨3, "return math.nan"⟩,
    ⟨2, "return target % value"⟩]

/-- Applies an operator to any two values. -/
def assignFunction : List Line :=
  ⟨0, "def zedAssign(target, value, operator):"⟩
    :: ⟨1, "if isinstance(target, str):"⟩
    :: textWithText ++ textWithNumber
    ++ ⟨2, "raise ValueError('unknown operator ' + operator)"⟩
    :: numberWithAny
    ++ [⟨1, "raise ValueError('unknown operator ' + operator)"⟩]

/-- The lines before the function of the program. -/
def preamble : List Line :=
  ⟨0, "import math"⟩ :: blank :: blank :: inputFunction ++ blank :: blank :: assignFunction

end Zed.Script
