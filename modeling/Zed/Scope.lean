import Zed.Program.Statement

/-!
# Scopes

A program is walked once, with one frame of defined names for each block that is open. A
variable may be read where some open frame defines it; every other read is reported, in the
order of the walk.

* An assignment defines its target in the innermost frame if every read in it was allowed. With an
  operator the target itself is read first.
* A counting loop defines its counter in the frame around it, so that it outlives the loop.
* The condition of a loop that tests after each pass is walked inside the frame of its body.
-/

set_option autoImplicit false

namespace Zed

/-- The state of a walk. -/
structure Scope where
  /-- The names defined in each open block, the innermost first. -/
  frames : List (List String)
  /-- The reads reported so far. -/
  reports : Array Diagnostic

namespace Scope

/-- Some open frame defines `name`. -/
def defines (scope : Scope) (name : String) : Bool :=
  scope.frames.any (·.contains name)

/-- Defines `name` in the innermost frame. -/
def define (scope : Scope) (name : String) : Scope :=
  { scope with frames := scope.frames.modifyHead (·.insert name) }

/-- Opens an empty frame. -/
def enter (scope : Scope) : Scope :=
  { scope with frames := [] :: scope.frames }

/-- Closes the innermost frame. -/
def leave (scope : Scope) : Scope :=
  { scope with frames := scope.frames.tail }

/-! ## Reads

Each of these reports the reads that are not allowed and says whether all were. -/

/-- Reads a variable. -/
def readVar (v : Variable) (scope : Scope) : Bool × Scope :=
  if scope.defines v.name then (true, scope)
  else (false, { scope with reports := scope.reports.push (.undefinedRead v.name v.position) })

/-- Reads a term. -/
def readTerm (t : Term) (scope : Scope) : Bool × Scope :=
  match t with
  | .var v => scope.readVar v
  | .text _ | .number _ => (true, scope)

/-- Reads terms from left to right, all of them even if one is not allowed. -/
def readTerms : List Term → Scope → Bool × Scope
  | [], scope => (true, scope)
  | t :: ts, scope =>
    let first := scope.readTerm t
    let others := readTerms ts first.2
    (first.1 && others.1, others.2)

/-- Reads what an assignment assigns. -/
def readValue (value : Value) (scope : Scope) : Bool × Scope :=
  match value with
  | .term t => scope.readTerm t
  | .input prompt => readTerms prompt scope

/-- Reads the target of an assignment, if there is an operator to apply to it. -/
def readTarget (target : Variable) (operator : Option Arithmetic) (scope : Scope) : Bool × Scope :=
  match operator with
  | some _ => scope.readVar target
  | none => (true, scope)

/-- Reads an operand from left to right. -/
def readOperand : Operand → Scope → Scope
  | .term t, scope => (scope.readTerm t).2
  | .condition _ _ left right, scope => readOperand right (readOperand left scope)

/-- Reads a condition from left to right. -/
def readCondition (c : Condition) (scope : Scope) : Scope :=
  readOperand c.right (readOperand c.left scope)

/-! ## Statements -/

/-- Walks an assignment: the reads in it, then the definition if they were all allowed. -/
def assign (target : Variable) (value : Value) (operator : Option Arithmetic) (scope : Scope) :
    Scope :=
  let old := scope.readTarget target operator
  let new := old.2.readValue value
  if old.1 && new.1 then new.2.define target.name else new.2

mutual
/-- Walks a statement. -/
def statement : Statement → Scope → Scope
  | .assign target value operator, scope => scope.assign target value operator
  | .output terms, scope => (readTerms terms scope).2
  | .whileLoop condition body, scope => block body (scope.readCondition condition)
  | .untilLoop (.mk body _) condition, scope =>
    ((statements body scope.enter).readCondition condition).leave
  | .forLoop counter _ _ _ body, scope => block body (scope.define counter.name)
  | .choice branches, scope => choice branches scope
  | .switch subject arms, scope => switch arms (scope.readVar subject).2
/-- Walks statements in order. -/
def statements : List Statement → Scope → Scope
  | [], scope => scope
  | s :: ss, scope => statements ss (statement s scope)
/-- Walks a block in a frame of its own. -/
def block : Block → Scope → Scope
  | .mk body _, scope => (statements body scope.enter).leave
/-- Walks branches: each condition in the frame around them, each block in its own. -/
def choice : List (Option Condition × Block) → Scope → Scope
  | [], scope => scope
  | (some condition, body) :: rest, scope =>
    choice rest (block body (scope.readCondition condition))
  | (none, body) :: rest, scope => choice rest (block body scope)
/-- Walks the blocks of arms. -/
def switch : List (Literal × Block) → Scope → Scope
  | [], scope => scope
  | (_, body) :: rest, scope => switch rest (block body scope)
end

/-- No block is open and nothing is reported. -/
def empty : Scope :=
  ⟨[], #[]⟩

end Scope

/-- The reads of variables that nothing defines, in the order of the walk. -/
def Program.undefinedReads (p : Program) : List Diagnostic :=
  (Scope.empty.block p.body).reports.toList

end Zed
