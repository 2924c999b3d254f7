import Zed.Program.Statement

/-!
# Parts of a program

A program is looked at in two ways. Its *leaves* are the variables, strings and numbers in it,
in the order in which they are written. Its *statements* are those of its body and those inside
them, at any depth.
-/

set_option autoImplicit false

namespace Zed

/-! ## Leaves -/

def Literal.toTerm : Literal → Term
  | .text body => .text body
  | .number x => .number x

def Value.leaves : Value → List Term
  | .term t => [t]
  | .input prompt => prompt

def Operand.leaves : Operand → List Term
  | .term t => [t]
  | .condition _ _ left right => left.leaves ++ right.leaves

def Condition.leaves (c : Condition) : List Term :=
  c.left.leaves ++ c.right.leaves

mutual
def Statement.leaves : Statement → List Term
  | .assign target value _ => .var target :: value.leaves
  | .output terms => terms
  | .whileLoop test body => test.leaves ++ Block.leaves body
  | .untilLoop body test => Block.leaves body ++ test.leaves
  | .forLoop counter start stop step body =>
    [.var counter, .number start, .number stop, .number step] ++ Block.leaves body
  | .choice branches => Statement.leavesOfBranches branches
  | .switch subject arms => .var subject :: Statement.leavesOfArms arms
/-- The leaves of statements in order. -/
def Statement.leavesOfAll : List Statement → List Term
  | [] => []
  | s :: ss => Statement.leaves s ++ Statement.leavesOfAll ss
def Block.leaves : Block → List Term
  | .mk ss _ => Statement.leavesOfAll ss
/-- The leaves of the branches of a choice. -/
def Statement.leavesOfBranches : List (Option Condition × Block) → List Term
  | [] => []
  | (some test, body) :: others => test.leaves ++ Block.leaves body
      ++ Statement.leavesOfBranches others
  | (none, body) :: others => Block.leaves body ++ Statement.leavesOfBranches others
/-- The leaves of the arms of a switch. -/
def Statement.leavesOfArms : List (Literal × Block) → List Term
  | [] => []
  | (label, body) :: others => label.toTerm :: Block.leaves body ++ Statement.leavesOfArms others
end

/-- The variables, strings and numbers of a program, in the order in which they are written. -/
def Program.leaves (p : Program) : List Term :=
  p.body.leaves

/-! ## Statements at any depth -/

mutual
/-- The statements inside a statement. -/
def Statement.inner : Statement → List Statement
  | .assign _ _ _ => []
  | .output _ => []
  | .whileLoop _ body => Block.inner body
  | .untilLoop body _ => Block.inner body
  | .forLoop _ _ _ _ body => Block.inner body
  | .choice branches => Statement.innerOfBranches branches
  | .switch _ arms => Statement.innerOfArms arms
/-- Statements in order, each followed by those inside it. -/
def Statement.innerOfAll : List Statement → List Statement
  | [] => []
  | s :: ss => s :: Statement.inner s ++ Statement.innerOfAll ss
def Block.inner : Block → List Statement
  | .mk ss _ => Statement.innerOfAll ss
/-- The statements in the branches of a choice. -/
def Statement.innerOfBranches : List (Option Condition × Block) → List Statement
  | [] => []
  | (_, body) :: others => Block.inner body ++ Statement.innerOfBranches others
/-- The statements in the arms of a switch. -/
def Statement.innerOfArms : List (Literal × Block) → List Statement
  | [] => []
  | (_, body) :: others => Block.inner body ++ Statement.innerOfArms others
end

/-- The statements of a program at any depth. -/
def Program.statements (p : Program) : List Statement :=
  p.body.inner

section Constructors

variable {counter subject : Variable} {test : Condition} {body : Block} {start stop step : Binary64}
  {label : Literal} {s : Statement} {ss : List Statement}
  {branches : List (Option Condition × Block)} {arms : List (Literal × Block)}

theorem Statement.leaves_whileLoop :
    (Statement.whileLoop test body).leaves = test.leaves ++ body.leaves := rfl

/-- The leaves of the test behind a loop come last, as the test does. -/
theorem Statement.leaves_untilLoop :
    (Statement.untilLoop body test).leaves = body.leaves ++ test.leaves := rfl

/-- The counter, the bounds and the step of a loop are leaves too. -/
theorem Statement.leaves_forLoop : (Statement.forLoop counter start stop step body).leaves
    = [.var counter, .number start, .number stop, .number step] ++ body.leaves := rfl

theorem Statement.leaves_choice :
    (Statement.choice branches).leaves = Statement.leavesOfBranches branches := rfl

/-- The subject of a switch comes in front of its arms. -/
theorem Statement.leaves_switch :
    (Statement.switch subject arms).leaves = .var subject :: Statement.leavesOfArms arms := rfl

theorem Statement.leavesOfAll_cons :
    Statement.leavesOfAll (s :: ss) = s.leaves ++ Statement.leavesOfAll ss := rfl

/-- The leaves of a condition come in front of those of its branch. -/
theorem Statement.leavesOfBranches_some : Statement.leavesOfBranches ((some test, body) :: branches)
    = test.leaves ++ body.leaves ++ Statement.leavesOfBranches branches := rfl

theorem Statement.leavesOfBranches_none : Statement.leavesOfBranches ((none, body) :: branches)
    = body.leaves ++ Statement.leavesOfBranches branches := rfl

/-- The label of an arm comes in front of its body. -/
theorem Statement.leavesOfArms_cons : Statement.leavesOfArms ((label, body) :: arms)
    = label.toTerm :: body.leaves ++ Statement.leavesOfArms arms := rfl

/-- A statement comes in front of those inside it. -/
theorem Statement.innerOfAll_cons :
    Statement.innerOfAll (s :: ss) = s :: s.inner ++ Statement.innerOfAll ss := rfl

theorem Statement.innerOfBranches_cons {guard : Option Condition} :
    Statement.innerOfBranches ((guard, body) :: branches)
      = body.inner ++ Statement.innerOfBranches branches := rfl

end Constructors

end Zed
