import Zed.Proofs.Meaning.Execution
import Zed.Proofs.Python.Execution

/-!
# Programs as scripts

The Python tree of a program, piece by piece. It is what a script says before it is written out
in lines; that reading the script gives it back is shown elsewhere, and that it does what the
program does in `Zed.Proofs.Meaning.Simulation`.
-/

set_option autoImplicit false

namespace Zed

open Python

/-! ## Expressions -/

/-- A number is an integer if it has no fraction. -/
def Python.numberExpr (x : Binary64) : Expr :=
  if x.isWhole then .int (Primitives.wholePart x) else .float x

def Term.toExpr : Term → Expr
  | .var v => .name v.name
  | .text body => .text body
  | .number x => numberExpr x

def Literal.toExpr : Literal → Expr
  | .text body => .text body
  | .number x => numberExpr x

def Relation.toOperator : Relation → Operator
  | .and => .and
  | .or => .or
  | .atLeast => .compare .atLeast
  | .atMost => .compare .atMost
  | .greater => .compare .greater
  | .less => .compare .less
  | .equal => .compare .equal

def Operand.toExpr : Operand → Expr
  | .term t => t.toExpr
  | .condition false r left right => .binary r.toOperator left.toExpr right.toExpr
  | .condition true r left right => .not (.binary r.toOperator left.toExpr right.toExpr)

def Condition.toExpr (c : Condition) : Expr :=
  c.toOperand.toExpr

/-- A term as a string. -/
def Term.toStrCall (t : Term) : Expr :=
  .call "str" [t.toExpr]

/-- Terms as strings, joined from the left. -/
def Term.promptExpr : List Term → Expr
  | [] => .text ""
  | t :: ts => ts.foldl (fun joined t => .binary .add joined t.toStrCall) t.toStrCall

def Value.toExpr : Value → Expr
  | .term t => t.toExpr
  | .input prompt => .call "zedInput" [Term.promptExpr prompt]

/-! ## Statements -/

/-- The variable that numbers the passes of a loop. -/
def Script.passNumber : String := "_n"

/-- The value of the counter in a pass. -/
def Script.placedExpr (start step : Binary64) : Expr :=
  .call "round"
    [.binary .add (numberExpr start) (.binary .mul (.name passNumber) (numberExpr step)),
      .int (max (places start) (places step))]

mutual
def Statement.toPython : Statement → List Stmt
  | .assign target value none => [.assign target.name value.toExpr]
  | .assign target value (some operator) =>
    [.assign target.name
      (.call "zedAssign" [.name target.name, value.toExpr, .text operator.symbol.spelling])]
  | .output terms => [.print (terms.map Term.toExpr) ""]
  | .whileLoop test body => [.whileLoop test.toExpr (Block.toSuite body)]
  | .untilLoop body test =>
    [.whileLoop (.constant true) (Block.toSuite body ++ [.ifElse test.toExpr [.leave] []])]
  | .forLoop counter start stop step body =>
    if Script.countsWhole start stop step then
      [.forRange counter.name
        [numberExpr start, .binary .add (numberExpr stop) (.int 1), numberExpr step]
        (Block.toSuite body)]
    else
      [.forRange Script.passNumber [.int (Script.passes start stop step)]
        (.assign counter.name (Script.placedExpr start step) :: Block.toPython body)]
  | .choice branches => Statement.branchesToPython branches
  | .switch _ [] => [.pass]
  | .switch subject (arm :: arms) => Statement.armsToPython subject.name (arm :: arms)
/-- Statements in order. -/
def Statement.allToPython : List Statement → List Stmt
  | [] => []
  | s :: ss => Statement.toPython s ++ Statement.allToPython ss
def Block.toPython : Block → List Stmt
  | .mk ss _ => Statement.allToPython ss
/-- A block as a suite, which must not be empty. -/
def Block.toSuite : Block → List Stmt
  | .mk ss _ => if ss.isEmpty then [.pass] else Statement.allToPython ss
/-- A chain of branches: each one stands in the `else` part of the one before. -/
def Statement.branchesToPython : List (Option Condition × Block) → List Stmt
  | [] => []
  | (some test, body) :: others =>
    [.ifElse test.toExpr (Block.toSuite body) (Statement.branchesToPython others)]
  | (none, body) :: _ => Block.toSuite body
/-- A chain of arms, in the same way. -/
def Statement.armsToPython (subject : String) : List (Literal × Block) → List Stmt
  | [] => []
  | (label, body) :: others =>
    [.ifElse (.binary (.compare .equal) (.name subject) label.toExpr) (Block.toSuite body)
      (Statement.armsToPython subject others)]
end

end Zed
