import Zed.Script.Counting
import Zed.Script.Outline

/-!
# The body of a script

Each statement of a program becomes one or more items of the outline. A suite must not be empty, so
a block without statements becomes a command that does nothing.
-/

set_option autoImplicit false

namespace Zed.Script

/-- The suite of a block: its items, or a command that does nothing if it has no statements. -/
def suiteOf (statements : List Statement) (items : List Item) : List Item :=
  if statements.isEmpty then [.line .pass] else items

/-- A loop counts in whole numbers if its bounds and its step are whole. -/
def countsWhole (start stop step : Binary64) : Bool :=
  start.isWhole && stop.isWhole && step.isWhole

/-- The command that computes the counter of a pass. -/
def placement (counter : String) (start step : Binary64) : Command :=
  .place counter start step (max (places start) (places step))

mutual
/-- The items of a statement. -/
def itemsOfStatement : Statement → List Item
  | .assign target value none => [.line (.assign target.name value)]
  | .assign target value (some operator) => [.line (.update target.name value operator)]
  | .output terms => [.line (.print terms)]
  | .whileLoop test body => [.suite (.whileTest test) (suiteOfBlock body)]
  | .untilLoop body test =>
    [.suite .forever (suiteOfBlock body ++ [.suite (.ifTest test) [.line .leave]])]
  | .forLoop counter start stop step body =>
    if countsWhole start stop step then
      [.suite (.forRange counter.name start stop step) (suiteOfBlock body)]
    else
      [.suite (.forPasses (passes start stop step))
        (.line (placement counter.name start step) :: itemsOfBlock body)]
  | .choice branches => itemsOfBranches true branches
  | .switch _ [] => [.line .pass]
  | .switch subject (arm :: arms) => itemsOfArms subject.name true (arm :: arms)
/-- The items of statements in order. -/
def itemsOfStatements : List Statement → List Item
  | [] => []
  | s :: ss => itemsOfStatement s ++ itemsOfStatements ss
/-- The items of the statements of a block. -/
def itemsOfBlock : Block → List Item
  | .mk ss _ => itemsOfStatements ss
/-- The items of a block as a suite. -/
def suiteOfBlock : Block → List Item
  | .mk ss _ => suiteOf ss (itemsOfStatements ss)
/-- The chain of branches; `first` marks its beginning. -/
def itemsOfBranches : (first : Bool) → List (Option Condition × Block) → List Item
  | _, [] => []
  | first, (some test, body) :: rest =>
    .suite (if first then .ifTest test else .elifTest test) (suiteOfBlock body)
      :: itemsOfBranches false rest
  | _, (none, body) :: rest => .suite .otherwise (suiteOfBlock body) :: itemsOfBranches false rest
/-- The chain of arms; `first` marks its beginning. -/
def itemsOfArms (subject : String) : (first : Bool) → List (Literal × Block) → List Item
  | _, [] => []
  | first, (label, body) :: rest =>
    .suite (if first then .ifEqual subject label else .elifEqual subject label) (suiteOfBlock body)
      :: itemsOfArms subject false rest
end

end Zed.Script
