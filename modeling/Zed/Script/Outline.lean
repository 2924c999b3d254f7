import Zed.Script.Expression

/-!
# Outline of a script

The statements of a Python script that programs are turned into, before they become text. A command
is a line of its own. A header is a line that opens a suite, the lines below it one level deeper.
-/

set_option autoImplicit false

namespace Zed.Script

/-- A line that opens no suite. -/
inductive Command where
  /-- Assigns a value. -/
  | assign (target : String) (value : Value)
  /-- Assigns the result of an operator on the old value and the given one. -/
  | update (target : String) (value : Value) (operator : Arithmetic)
  /-- Assigns the counter of a pass by its number, rounded. -/
  | place (counter : String) (start step : Binary64) (places : Nat)
  /-- Prints terms. -/
  | print (terms : List Term)
  /-- Does nothing. -/
  | pass
  /-- Leaves the innermost loop. -/
  | leave

/-- A line that opens a suite. -/
inductive Header where
  /-- Repeats while a condition holds. -/
  | whileTest (test : Condition)
  /-- Repeats until it is left. -/
  | forever
  /-- Counts in whole numbers, the last one included. -/
  | forRange (counter : String) (start stop step : Binary64)
  /-- Makes a number of passes. -/
  | forPasses (count : Nat)
  /-- Runs if a condition holds. -/
  | ifTest (test : Condition)
  /-- Runs if nothing before it in the chain ran and a condition holds. -/
  | elifTest (test : Condition)
  /-- Runs if a variable equals a constant. -/
  | ifEqual (subject : String) (label : Literal)
  /-- Runs if nothing before it in the chain ran and a variable equals a constant. -/
  | elifEqual (subject : String) (label : Literal)
  /-- Runs if nothing before it in the chain ran. -/
  | otherwise

/-- A command, or a header with its suite. -/
inductive Item where
  | line (command : Command)
  | suite (header : Header) (body : List Item)

/-! ## Text of a line -/

/-- A command as text. -/
def Command.text : Command → String
  | .assign target v => target ++ " = " ++ value v
  | .update target v operator =>
    target ++ " = zedAssign(" ++ target ++ ", " ++ value v ++ ", '"
      ++ operator.symbol.spelling ++ "')"
  | .place counter start step places =>
    counter ++ " = round(" ++ number start ++ " + _n * " ++ number step ++ ", "
      ++ places.repr ++ ")"
  | .print ts => "print(" ++ printArguments ts ++ ")"
  | .pass => "pass"
  | .leave => "break"

/-- A header as text. -/
def Header.text : Header → String
  | .whileTest test => "while " ++ condition test ++ ":"
  | .forever => "while True:"
  | .forRange counter start stop step =>
    "for " ++ counter ++ " in range(" ++ number start ++ ", " ++ number stop ++ " + 1, "
      ++ number step ++ "):"
  | .forPasses count => "for _n in range(" ++ count.repr ++ "):"
  | .ifTest test => "if " ++ condition test ++ ":"
  | .elifTest test => "elif " ++ condition test ++ ":"
  | .ifEqual subject label => "if " ++ subject ++ " == " ++ literal label ++ ":"
  | .elifEqual subject label => "elif " ++ subject ++ " == " ++ literal label ++ ":"
  | .otherwise => "else:"

/-! ## Lines -/

/-- A line of a script at its depth. -/
structure Line where
  /-- The number of suites around the line. -/
  depth : Nat
  /-- The line without its indentation. -/
  text : String
  deriving DecidableEq, Repr

/-- The characters of a line: four spaces for each level, the text, a line feed. -/
def Line.chars (line : Line) : List Char :=
  List.replicate (4 * line.depth) ' ' ++ line.text.toList ++ ['\n']

mutual
/-- The lines of an item that stands at a given depth. -/
def Item.lines : Item → (depth : Nat) → List Line
  | .line command, depth => [⟨depth, command.text⟩]
  | .suite header body, depth => ⟨depth, header.text⟩ :: Item.linesOfList body (depth + 1)
/-- The lines of items that stand at a given depth. -/
def Item.linesOfList : List Item → (depth : Nat) → List Line
  | [], _ => []
  | item :: rest, depth => item.lines depth ++ Item.linesOfList rest depth
end

end Zed.Script
