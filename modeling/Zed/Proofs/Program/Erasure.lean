import Zed.Program.Statement

/-!
# Programs without places

A program remembers where each variable stands in its source, and what was reported while its blocks
were read. `Statement.map rename report` changes every variable by `rename` and every list of
diagnostics by `report`, at any depth. There are three cases of it. `clear` takes the diagnostics
away and nothing else. `erase` takes the places of the variables away and puts `report ds` where a
block has the diagnostics `ds`. With `id` two programs are compared up to the places of their
variables, with `fun _ => []` up to diagnostics as well (`bare`).
-/

set_option autoImplicit false

namespace Zed

/-! ## Changing variables and diagnostics -/

def Term.map (rename : Variable → Variable) : Term → Term
  | .var v => .var (rename v)
  | .text body => .text body
  | .number value => .number value

def Value.map (rename : Variable → Variable) : Value → Value
  | .term t => .term (t.map rename)
  | .input prompt => .input (prompt.map (Term.map rename))

def Operand.map (rename : Variable → Variable) : Operand → Operand
  | .term t => .term (t.map rename)
  | .condition negated relation left right =>
    .condition negated relation (left.map rename) (right.map rename)

def Condition.map (rename : Variable → Variable) (c : Condition) : Condition :=
  ⟨c.negated, c.relation, c.left.map rename, c.right.map rename⟩

mutual
/-- The statement with every variable and the diagnostics of every block changed. -/
def Statement.map (rename : Variable → Variable) (report : List Diagnostic → List Diagnostic) :
    Statement → Statement
  | .assign target value operator => .assign (rename target) (value.map rename) operator
  | .output terms => .output (terms.map (Term.map rename))
  | .whileLoop test body => .whileLoop (test.map rename) (Block.map rename report body)
  | .untilLoop body test => .untilLoop (Block.map rename report body) (test.map rename)
  | .forLoop counter start stop step body =>
    .forLoop (rename counter) start stop step (Block.map rename report body)
  | .choice branches => .choice (Statement.mapBranches rename report branches)
  | .switch subject arms => .switch (rename subject) (Statement.mapArms rename report arms)
/-- Statements in order. -/
def Statement.mapAll (rename : Variable → Variable) (report : List Diagnostic → List Diagnostic) :
    List Statement → List Statement
  | [] => []
  | s :: ss => Statement.map rename report s :: Statement.mapAll rename report ss
def Block.map (rename : Variable → Variable) (report : List Diagnostic → List Diagnostic) :
    Block → Block
  | .mk ss ds => .mk (Statement.mapAll rename report ss) (report ds)
/-- The branches of a choice. -/
def Statement.mapBranches (rename : Variable → Variable)
    (report : List Diagnostic → List Diagnostic) :
    List (Option Condition × Block) → List (Option Condition × Block)
  | [] => []
  | (test, body) :: others =>
    (test.map (Condition.map rename), Block.map rename report body) ::
      Statement.mapBranches rename report others
/-- The arms of a switch. -/
def Statement.mapArms (rename : Variable → Variable)
    (report : List Diagnostic → List Diagnostic) : List (Literal × Block) → List (Literal × Block)
  | [] => []
  | (label, body) :: others =>
    (label, Block.map rename report body) :: Statement.mapArms rename report others
end

/-- The statements of a list are mapped one by one. -/
theorem Statement.mapAll_eq_map (rename : Variable → Variable)
    (report : List Diagnostic → List Diagnostic) (ss : List Statement) :
    Statement.mapAll rename report ss = ss.map (Statement.map rename report) := by
  induction ss with
  | nil => rfl
  | cons s ss ih => exact congrArg (Statement.map rename report s :: ·) ih

/-! Nothing changes where neither variables nor diagnostics do. -/

/-- A term whose variables stay as they are stays as it is. -/
theorem Term.map_id (t : Term) : t.map id = t := by
  cases t <;> rfl

theorem Term.map_map_id (ts : List Term) : ts.map (Term.map id) = ts := by
  rw [funext Term.map_id]
  exact List.map_id ts

theorem Value.map_id (value : Value) : value.map id = value := by
  cases value with
  | term t => exact congrArg Value.term t.map_id
  | input prompt => exact congrArg Value.input (Term.map_map_id prompt)

/-- An operand whose variables stay as they are stays as it is. -/
theorem Operand.map_id (operand : Operand) : operand.map id = operand := by
  induction operand with
  | term t => exact congrArg Operand.term t.map_id
  | condition negated relation left right ihleft ihright =>
    rw [Operand.map, ihleft, ihright]

/-- A condition whose variables stay as they are stays as it is. -/
theorem Condition.map_id (c : Condition) : c.map id = c := by
  rw [Condition.map, Operand.map_id, Operand.map_id]

theorem Condition.map_map_id (guard : Option Condition) : guard.map (Condition.map id) = guard := by
  rw [funext Condition.map_id]
  exact Option.map_id'

mutual

/-- A statement stays as it is if its variables and the reports of its blocks do. -/
theorem Statement.map_id : (s : Statement) → s.map id id = s
  | .assign target value operator => by rw [Statement.map, value.map_id, id]
  | .output terms => by rw [Statement.map, Term.map_map_id]
  | .whileLoop test body => by rw [Statement.map, test.map_id, Block.map_id body]
  | .untilLoop body test => by rw [Statement.map, Block.map_id body, test.map_id]
  | .forLoop counter start stop step body => by rw [Statement.map, Block.map_id body, id]
  | .choice branches => by rw [Statement.map, Statement.mapBranches_id branches]
  | .switch subject arms => by rw [Statement.map, Statement.mapArms_id arms, id]

/-- Statements stay as they are if their variables and the reports of their blocks do. -/
theorem Statement.mapAll_id : (ss : List Statement) → Statement.mapAll id id ss = ss
  | [] => rfl
  | s :: ss => by rw [Statement.mapAll, Statement.map_id s, Statement.mapAll_id ss]

/-- A block stays as it is if its variables and its reports do. -/
theorem Block.map_id : (b : Block) → b.map id id = b
  | .mk ss ds => by rw [Block.map, Statement.mapAll_id ss, id]

/-- Branches stay as they are if their variables and the reports of their bodies do. -/
theorem Statement.mapBranches_id : (branches : List (Option Condition × Block)) →
    Statement.mapBranches id id branches = branches
  | [] => rfl
  | (guard, body) :: others => by
    rw [Statement.mapBranches, Condition.map_map_id, Block.map_id body,
      Statement.mapBranches_id others]

/-- Arms stay as they are if the variables and the reports of their bodies do. -/
theorem Statement.mapArms_id : (arms : List (Literal × Block)) →
    Statement.mapArms id id arms = arms
  | [] => rfl
  | (label, body) :: others => by
    rw [Statement.mapArms, Block.map_id body, Statement.mapArms_id others]
end

/-! ## Without diagnostics -/

/-- The statement without the diagnostics of its blocks. -/
def Statement.clear : Statement → Statement :=
  Statement.map id fun _ => []

def Statement.clearAll : List Statement → List Statement :=
  Statement.mapAll id fun _ => []

def Block.clear : Block → Block :=
  Block.map id fun _ => []

def Statement.clearBranches : List (Option Condition × Block) → List (Option Condition × Block) :=
  Statement.mapBranches id fun _ => []

def Statement.clearArms : List (Literal × Block) → List (Literal × Block) :=
  Statement.mapArms id fun _ => []

def Program.clear (p : Program) : Program :=
  ⟨p.name, p.body.clear⟩

section Clear

variable {target counter subject : Variable} {value : Value} {operator : Option Arithmetic}
  {terms : List Term} {test : Condition} {guard : Option Condition} {body : Block}
  {start stop step : Binary64} {label : Literal} {s : Statement} {ss : List Statement}
  {ds : List Diagnostic} {branches : List (Option Condition × Block)}
  {arms : List (Literal × Block)}

/-- A simple statement has no reports to lose. -/
theorem Statement.clear_assign :
    (Statement.assign target value operator).clear = .assign target value operator :=
  congrArg (Statement.assign target · operator) value.map_id

theorem Statement.clear_output : (Statement.output terms).clear = .output terms :=
  congrArg Statement.output (Term.map_map_id terms)

/-- Only the body of a loop loses its reports. -/
theorem Statement.clear_whileLoop :
    (Statement.whileLoop test body).clear = .whileLoop test body.clear :=
  congrArg (Statement.whileLoop · body.clear) test.map_id

theorem Statement.clear_untilLoop :
    (Statement.untilLoop body test).clear = .untilLoop body.clear test :=
  congrArg (Statement.untilLoop body.clear) test.map_id

/-- Only the body of a counting loop loses its reports. -/
theorem Statement.clear_forLoop : (Statement.forLoop counter start stop step body).clear =
    .forLoop counter start stop step body.clear := rfl

/-- Each branch of a choice loses the reports of its body. -/
theorem Statement.clear_choice :
    (Statement.choice branches).clear = .choice (Statement.clearBranches branches) := rfl

/-- Each arm of a switch loses the reports of its body. -/
theorem Statement.clear_switch :
    (Statement.switch subject arms).clear = .switch subject (Statement.clearArms arms) := rfl

theorem Statement.clearAll_cons :
    Statement.clearAll (s :: ss) = s.clear :: Statement.clearAll ss := rfl

/-- The guard of a branch stays as it is. -/
theorem Statement.clearBranches_cons : Statement.clearBranches ((guard, body) :: branches) =
    (guard, body.clear) :: Statement.clearBranches branches :=
  congrArg (fun guard => (guard, body.clear) :: Statement.clearBranches branches)
    (Condition.map_map_id guard)

theorem Statement.clearArms_cons : Statement.clearArms ((label, body) :: arms) =
    (label, body.clear) :: Statement.clearArms arms := rfl

end Clear

/-! ## Without places -/

/-- The place that stands for all of them. -/
def Position.origin : Position :=
  ⟨0, 0⟩

def Variable.erase (v : Variable) : Variable :=
  ⟨v.name, .origin⟩

def Term.erase : Term → Term :=
  Term.map Variable.erase

def Value.erase : Value → Value :=
  Value.map Variable.erase

def Operand.erase : Operand → Operand :=
  Operand.map Variable.erase

def Condition.erase : Condition → Condition :=
  Condition.map Variable.erase

def Statement.erase : (List Diagnostic → List Diagnostic) → Statement → Statement :=
  Statement.map Variable.erase

def Statement.eraseAll : (List Diagnostic → List Diagnostic) → List Statement → List Statement :=
  Statement.mapAll Variable.erase

def Block.erase : (List Diagnostic → List Diagnostic) → Block → Block :=
  Block.map Variable.erase

def Statement.eraseBranches : (List Diagnostic → List Diagnostic) →
    List (Option Condition × Block) → List (Option Condition × Block) :=
  Statement.mapBranches Variable.erase

def Statement.eraseArms : (List Diagnostic → List Diagnostic) →
    List (Literal × Block) → List (Literal × Block) :=
  Statement.mapArms Variable.erase

def Program.erase (report : List Diagnostic → List Diagnostic) (p : Program) : Program :=
  ⟨p.name, p.body.erase report⟩

section Constructors

variable {report : List Diagnostic → List Diagnostic} {target counter subject : Variable}
  {value : Value} {operator : Option Arithmetic} {terms : List Term} {test : Condition}
  {guard : Option Condition} {body : Block} {start stop step : Binary64} {label : Literal}
  {s : Statement} {ss : List Statement} {ds : List Diagnostic}
  {branches : List (Option Condition × Block)} {arms : List (Literal × Block)}

/-- The operands of a nested condition lose their positions. -/
theorem Operand.erase_condition (negated : Bool) (relation : Relation) (left right : Operand) :
    (Operand.condition negated relation left right).erase
      = .condition negated relation left.erase right.erase := rfl

theorem Condition.erase_mk (negated : Bool) (relation : Relation) (left right : Operand) :
    (Condition.mk negated relation left right).erase
      = ⟨negated, relation, left.erase, right.erase⟩ := rfl

theorem Statement.erase_assign : (Statement.assign target value operator).erase report =
    .assign target.erase value.erase operator := rfl

theorem Statement.erase_output : (Statement.output terms).erase report =
    .output (terms.map Term.erase) := rfl

theorem Statement.erase_whileLoop : (Statement.whileLoop test body).erase report =
    .whileLoop test.erase (body.erase report) := rfl

theorem Statement.erase_untilLoop : (Statement.untilLoop body test).erase report =
    .untilLoop (body.erase report) test.erase := rfl

/-- A counting loop loses the position of its counter. Its bounds have none. -/
theorem Statement.erase_forLoop : (Statement.forLoop counter start stop step body).erase report =
    .forLoop counter.erase start stop step (body.erase report) := rfl

theorem Statement.erase_choice : (Statement.choice branches).erase report =
    .choice (Statement.eraseBranches report branches) := rfl

/-- A switch loses the position of its subject. Its labels have none. -/
theorem Statement.erase_switch : (Statement.switch subject arms).erase report =
    .switch subject.erase (Statement.eraseArms report arms) := rfl

theorem Statement.eraseAll_nil : Statement.eraseAll report [] = [] := rfl

theorem Statement.eraseAll_cons : Statement.eraseAll report (s :: ss) =
    s.erase report :: Statement.eraseAll report ss := rfl

/-- A block keeps of its reports what the given function keeps. -/
theorem Block.erase_mk :
    (Block.mk ss ds).erase report = .mk (Statement.eraseAll report ss) (report ds) := rfl

theorem Statement.eraseBranches_nil : Statement.eraseBranches report [] = [] := rfl

/-- A branch loses the positions in its guard and in its body. -/
theorem Statement.eraseBranches_cons : Statement.eraseBranches report ((guard, body) :: branches) =
    (guard.map Condition.erase, body.erase report) :: Statement.eraseBranches report branches := rfl

theorem Statement.eraseArms_nil : Statement.eraseArms report [] = [] := rfl

theorem Statement.eraseArms_cons : Statement.eraseArms report ((label, body) :: arms) =
    (label, body.erase report) :: Statement.eraseArms report arms := rfl

end Constructors

/-! ## Neither places nor diagnostics -/

def Statement.bare (s : Statement) : Statement :=
  s.erase fun _ => []

def Block.bare (b : Block) : Block :=
  b.erase fun _ => []

def Statement.bareBranches : List (Option Condition × Block) → List (Option Condition × Block) :=
  Statement.eraseBranches fun _ => []

def Statement.bareArms : List (Literal × Block) → List (Literal × Block) :=
  Statement.eraseArms fun _ => []

def Program.bare (p : Program) : Program :=
  p.erase fun _ => []

end Zed
