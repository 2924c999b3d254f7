import Zed.Proofs.Meaning.Primitives

/-!
# Execution of programs

What a program does, statement by statement, over any interpretation of the primitive operations.
`Runs` relates work to do and the state before it to the state after it, and holds only for runs
that come to an end without failing.

* A loop with its test in front tests before each pass, one with its test behind after each.
* The values of a counting loop are fixed when it is entered. Each pass begins by giving the counter
  its next value, whatever the body has assigned to it.
* Of a choice the first branch whose condition holds runs, of a switch the first arm whose
  label equals the variable.
-/

set_option autoImplicit false

namespace Zed

variable (I : Primitives)

/-! ## Terms, values and conditions -/

/-- The value of a term. A variable must have one. -/
def Term.eval (s : State I) : Term → Option I.Val
  | .var v => s.store v.name
  | .text body => some (I.text body)
  | .number x => some (I.number x)

/-- A term as text. -/
def Term.displayed (s : State I) (t : Term) : Option String :=
  (t.eval I s).bind I.display

/-- Terms as one text. -/
def Term.joined (s : State I) : List Term → Option String
  | [] => some ""
  | t :: ts => do
    let first ← t.displayed I s
    let others ← Term.joined s ts
    return first ++ others

/-- What an assignment assigns; asking for it changes the state. -/
def Value.eval (s : State I) : Value → Option (I.Val × State I)
  | .term t => (t.eval I s).map fun v => (v, s)
  | .input prompt => (Term.joined I s prompt).bind fun text => s.ask (I.text text)

/-- Joins two operands. The second operand of a logical relation counts only if the first
does not decide. -/
def Relation.eval (r : Relation) (left right : Option I.Val) : Option I.Val := do
  let v ← left
  match r with
  | .and => if I.holds v then right else some v
  | .or => if I.holds v then some v else right
  | .atLeast => right.bind (I.compare .atLeast v)
  | .atMost => right.bind (I.compare .atMost v)
  | .greater => right.bind (I.compare .greater v)
  | .less => right.bind (I.compare .less v)
  | .equal => right.bind (I.compare .equal v)

/-- The value of an operand. -/
def Operand.eval (s : State I) : Operand → Option I.Val
  | .term t => t.eval I s
  | .condition negated r left right =>
    (r.eval I (left.eval s) (right.eval s)).map fun v =>
      if negated then I.truth (!I.holds v) else v

/-- A condition comes out true or false. -/
def Condition.eval (c : Condition) (s : State I) : Option Bool :=
  (c.toOperand.eval I s).map I.holds

/-- The variable equals the label. -/
def Literal.matches (label : Literal) (subject : String) (s : State I) : Option Bool := do
  let v ← s.store subject
  let result ← I.compare .equal v (I.literal label)
  return I.holds result

/-! ## Statements -/

/-- Work to do: statements, or what is left of a compound statement. -/
inductive Work where
  | statement (s : Statement)
  | statements (ss : List Statement)
  /-- The passes of a counting loop that are left, by the values of its counter. -/
  | counting (counter : String) (values : List I.Val) (body : List Statement)
  /-- The branches of a choice that are left. -/
  | branches (bs : List (Option Condition × Block))
  /-- The arms of a switch that are left. -/
  | arms (subject : String) (as : List (Literal × Block))

variable {I}

/-- The work takes the first state to the second. -/
inductive Runs : Work I → State I → State I → Prop
  | assign {s t : State I} {target : Variable} {value : Value} {v : I.Val}
      (hvalue : value.eval I s = some (v, t)) :
      Runs (.statement (.assign target value none)) s (t.set target.name v)
  | update {s t : State I} {target : Variable} {value : Value} {operator : Arithmetic}
      {old v w : I.Val} (hold : s.store target.name = some old)
      (hvalue : value.eval I s = some (v, t))
      (hupdate : I.update old v (I.text operator.symbol.spelling) = some w) :
      Runs (.statement (.assign target value (some operator))) s (t.set target.name w)
  | output {s : State I} {terms : List Term} {text : String}
      (hterms : Term.joined I s terms = some text) :
      Runs (.statement (.output terms)) s (s.print (text ++ "\n"))
  | whileDone {s : State I} {test : Condition} {body : Block} (htest : test.eval I s = some false) :
      Runs (.statement (.whileLoop test body)) s s
  | whilePass {s t u : State I} {test : Condition} {body : Block}
      (htest : test.eval I s = some true) (hbody : Runs (.statements body.statements) s t)
      (hagain : Runs (.statement (.whileLoop test body)) t u) :
      Runs (.statement (.whileLoop test body)) s u
  | untilDone {s t : State I} {test : Condition} {body : Block}
      (hbody : Runs (.statements body.statements) s t) (htest : test.eval I t = some true) :
      Runs (.statement (.untilLoop body test)) s t
  | untilPass {s t u : State I} {test : Condition} {body : Block}
      (hbody : Runs (.statements body.statements) s t) (htest : test.eval I t = some false)
      (hagain : Runs (.statement (.untilLoop body test)) t u) :
      Runs (.statement (.untilLoop body test)) s u
  | forLoop {s t : State I} {counter : Variable} {start stop step : Binary64} {body : Block}
      {values : List I.Val} (hvalues : I.counterValues start stop step = some values)
      (hpasses : Runs (.counting counter.name values body.statements) s t) :
      Runs (.statement (.forLoop counter start stop step body)) s t
  | choice {s t : State I} {bs : List (Option Condition × Block)}
      (hbranches : Runs (.branches bs) s t) :
      Runs (.statement (.choice bs)) s t
  | switch {s t : State I} {subject : Variable} {as : List (Literal × Block)}
      (harms : Runs (.arms subject.name as) s t) : Runs (.statement (.switch subject as)) s t
  | nil {s : State I} : Runs (.statements []) s s
  | cons {s t u : State I} {first : Statement} {others : List Statement}
      (hfirst : Runs (.statement first) s t) (hothers : Runs (.statements others) t u) :
      Runs (.statements (first :: others)) s u
  | counted {s : State I} {counter : String} {body : List Statement} :
      Runs (.counting counter [] body) s s
  | countPass {s t u : State I} {counter : String} {v : I.Val} {vs : List I.Val}
      {body : List Statement} (hbody : Runs (.statements body) (s.set counter v) t)
      (hothers : Runs (.counting counter vs body) t u) :
      Runs (.counting counter (v :: vs) body) s u
  | noBranch {s : State I} : Runs (.branches []) s s
  | otherwise {s t : State I} {body : Block} {others : List (Option Condition × Block)}
      (hbody : Runs (.statements body.statements) s t) :
      Runs (.branches ((none, body) :: others)) s t
  | branch {s t : State I} {test : Condition} {body : Block}
      {others : List (Option Condition × Block)} (htest : test.eval I s = some true)
      (hbody : Runs (.statements body.statements) s t) :
      Runs (.branches ((some test, body) :: others)) s t
  | branchSkip {s t : State I} {test : Condition} {body : Block}
      {others : List (Option Condition × Block)} (htest : test.eval I s = some false)
      (hothers : Runs (.branches others) s t) : Runs (.branches ((some test, body) :: others)) s t
  | noArm {s : State I} {subject : String} : Runs (.arms subject []) s s
  | arm {s t : State I} {subject : String} {label : Literal} {body : Block}
      {others : List (Literal × Block)} (hlabel : label.matches I subject s = some true)
      (hbody : Runs (.statements body.statements) s t) :
      Runs (.arms subject ((label, body) :: others)) s t
  | armSkip {s t : State I} {subject : String} {label : Literal} {body : Block}
      {others : List (Literal × Block)} (hlabel : label.matches I subject s = some false)
      (hothers : Runs (.arms subject others) s t) :
      Runs (.arms subject ((label, body) :: others)) s t

end Zed
