import Zed.Proofs.Scope.Walk

/-!
# Paths of a program

A path is what a run of a program does to its variables, as a list of events. Conditions may turn
out either way, so a loop makes any number of passes and a choice takes any branch it could take:

* a loop that tests first makes any number of passes, one that tests last at least one;
* a counting loop makes any number of passes and assigns its counter at the start of each of them;
  if it makes none, that is an event of its own;
* a choice takes a branch, or none if every branch has a condition; the conditions up to
  the branch are read;
* a switch reads its variable and takes an arm or none.

Main result: on every path of a program without reported reads, a variable that is read was assigned
before, or a counting loop over it made no pass before (`read_bound_of_undefinedReads_eq_nil`).
-/

set_option autoImplicit false

namespace Zed

/-! ## Reads of expressions -/

/-- The variables that a term reads. -/
def Term.reads : Term → List String
  | .var v => [v.name]
  | .text _ | .number _ => []

/-- The variables that a value reads. -/
def Value.reads : Value → List String
  | .term t => t.reads
  | .input prompt => prompt.flatMap Term.reads

/-- The variables that an operand reads, from left to right. -/
def Operand.reads : Operand → List String
  | .term t => t.reads
  | .condition _ _ left right => left.reads ++ right.reads

/-- The variables that a condition reads, from left to right. -/
def Condition.reads (c : Condition) : List String :=
  c.left.reads ++ c.right.reads

/-- The variables that an assignment reads: its target too if there is an operator to
apply to it. -/
def Variable.readsInUpdate (target : Variable) (operator : Option Arithmetic) : List String :=
  if operator.isSome then [target.name] else []

/-! ## Events and paths -/

/-- What happens to a variable. -/
inductive Event where
  /-- The variable is read. -/
  | read (name : String)
  /-- The variable is assigned. -/
  | assign (name : String)
  /-- A counting loop over the variable makes no pass. -/
  | idle (name : String)
  deriving DecidableEq, Repr

/-- The events of reading variables in order. -/
def Event.reads (names : List String) : List Event :=
  names.map .read

/-- What is left to run at a point of a program. -/
inductive Code where
  | statement (s : Statement)
  | statements (ss : List Statement)
  /-- At least one pass of a counting loop. -/
  | passes (counter : Variable) (body : Block)
  /-- The branches of a choice from some branch on, when none before it was taken. -/
  | branches (branches : List (Option Condition × Block))
  /-- At most one of the arms of a switch. -/
  | arms (arms : List (Literal × Block))

/-- The events are those of one way to run the code. -/
inductive Path : Code → List Event → Prop
  | assign (target : Variable) (value : Value) (operator : Option Arithmetic) :
      Path (.statement (.assign target value operator))
        (Event.reads (target.readsInUpdate operator ++ value.reads) ++ [.assign target.name])
  | output (terms : List Term) :
      Path (.statement (.output terms)) (Event.reads (terms.flatMap Term.reads))
  | whileEnd (test : Condition) (body : Block) :
      Path (.statement (.whileLoop test body)) (Event.reads test.reads)
  | whilePass {test : Condition} {body : Block} {pass others : List Event} :
      Path (.statements body.statements) pass →
      Path (.statement (.whileLoop test body)) others →
      Path (.statement (.whileLoop test body)) (Event.reads test.reads ++ (pass ++ others))
  | untilEnd {body : Block} {test : Condition} {pass : List Event} :
      Path (.statements body.statements) pass →
      Path (.statement (.untilLoop body test)) (pass ++ Event.reads test.reads)
  | untilPass {body : Block} {test : Condition} {pass others : List Event} :
      Path (.statements body.statements) pass →
      Path (.statement (.untilLoop body test)) others →
      Path (.statement (.untilLoop body test)) (pass ++ Event.reads test.reads ++ others)
  | forIdle (counter : Variable) (start stop step : Binary64) (body : Block) :
      Path (.statement (.forLoop counter start stop step body)) [.idle counter.name]
  | forPasses {counter : Variable} {start stop step : Binary64} {body : Block}
      {events : List Event} :
      Path (.passes counter body) events →
      Path (.statement (.forLoop counter start stop step body)) events
  | lastPass {counter : Variable} {body : Block} {pass : List Event} :
      Path (.statements body.statements) pass →
      Path (.passes counter body) (.assign counter.name :: pass)
  | nextPass {counter : Variable} {body : Block} {pass others : List Event} :
      Path (.statements body.statements) pass → Path (.passes counter body) others →
      Path (.passes counter body) (.assign counter.name :: (pass ++ others))
  | choice {branches : List (Option Condition × Block)} {events : List Event} :
      Path (.branches branches) events → Path (.statement (.choice branches)) events
  | noBranch : Path (.branches []) []
  | branchTaken {test : Condition} {body : Block} {rest : List (Option Condition × Block)}
      {events : List Event} :
      Path (.statements body.statements) events →
      Path (.branches ((some test, body) :: rest)) (Event.reads test.reads ++ events)
  | branchPassed {test : Condition} {body : Block} {rest : List (Option Condition × Block)}
      {events : List Event} :
      Path (.branches rest) events →
      Path (.branches ((some test, body) :: rest)) (Event.reads test.reads ++ events)
  | otherwise {body : Block} {rest : List (Option Condition × Block)} {events : List Event} :
      Path (.statements body.statements) events → Path (.branches ((none, body) :: rest)) events
  | switch {subject : Variable} {arms : List (Literal × Block)} {events : List Event} :
      Path (.arms arms) events →
      Path (.statement (.switch subject arms)) (.read subject.name :: events)
  | noArm (arms : List (Literal × Block)) : Path (.arms arms) []
  | arm {arms : List (Literal × Block)} {label : Literal} {body : Block} {events : List Event} :
      (label, body) ∈ arms → Path (.statements body.statements) events → Path (.arms arms) events
  | nil : Path (.statements []) []
  | cons {s : Statement} {ss : List Statement} {first others : List Event} :
      Path (.statement s) first → Path (.statements ss) others →
      Path (.statements (s :: ss)) (first ++ others)

/-! ## Reads with a history -/

/-- The history has an assignment of the variable, or a counting loop over it that made no pass. -/
def Bound (history : List Event) (name : String) : Prop :=
  .assign name ∈ history ∨ .idle name ∈ history

/-- Every read among the events is of a variable that the history or an event before it binds. -/
def Justified : (history events : List Event) → Prop
  | _, [] => True
  | history, .read name :: rest => Bound history name ∧ Justified (history ++ [.read name]) rest
  | history, event :: rest => Justified (history ++ [event]) rest

/-- What happens later unbinds nothing. -/
theorem Bound.append_right {history : List Event} {name : String} (h : Bound history name)
    (more : List Event) : Bound (history ++ more) name := by
  rcases h with h | h
  · exact Or.inl (List.mem_append_left _ h)
  · exact Or.inr (List.mem_append_left _ h)

/-- Events in a row are justified if the first ones are, and the others are after them. -/
theorem justified_append {events more : List Event} :
    ∀ {history : List Event}, Justified history (events ++ more) ↔
      Justified history events ∧ Justified (history ++ events) more := by
  induction events with
  | nil =>
    intro history
    simp [Justified]
  | cons event rest ih =>
    intro history
    cases event <;> simp [Justified, ih, and_assoc]

/-- Reads are justified if their names are bound before. -/
theorem justified_reads {names : List String} :
    ∀ {history : List Event}, (∀ name ∈ names, Bound history name) →
      Justified history (Event.reads names) := by
  induction names with
  | nil =>
    intro history _
    trivial
  | cons name names ih =>
    intro history h
    refine ⟨h name List.mem_cons_self, ih fun other hother => ?_⟩
    exact (h other (List.mem_cons_of_mem _ hother)).append_right _

/-- A justified read, split off the events around it. -/
theorem Justified.bound {before after : List Event} {name : String}
    (h : Justified [] (before ++ .read name :: after)) : Bound before name := by
  have hread := (justified_append.1 h).2
  simp only [List.nil_append, Justified] at hread
  exact hread.1

namespace Scope

/-! ## Clean reads -/

variable {scope : Scope}

/-- A read that is not reported changes nothing, and the variable is defined. -/
theorem readVar_clean {v : Variable} (h : (scope.readVar v).2.Clean) :
    scope.readVar v = (true, scope) ∧ scope.defines v.name = true := by
  rw [readVar] at h ⊢
  split at h
  case isTrue hdefines => exact ⟨by rw [if_pos hdefines], hdefines⟩
  case isFalse => simp [Clean] at h

theorem readTerm_clean {t : Term} (h : (scope.readTerm t).2.Clean) :
    scope.readTerm t = (true, scope) ∧ ∀ name ∈ t.reads, scope.defines name = true := by
  cases t with
  | var v =>
    obtain ⟨hread, hdefines⟩ := readVar_clean h
    exact ⟨hread, by simpa [Term.reads] using hdefines⟩
  | text body => exact ⟨rfl, by simp [Term.reads]⟩
  | number value => exact ⟨rfl, by simp [Term.reads]⟩

/-- Reads that are not reported change nothing, and the variables are defined. -/
theorem readTerms_clean :
    ∀ {ts : List Term}, (readTerms ts scope).2.Clean →
      readTerms ts scope = (true, scope) ∧
        ∀ name ∈ ts.flatMap Term.reads, scope.defines name = true := by
  intro ts
  induction ts with
  | nil =>
    intro _
    exact ⟨rfl, by simp⟩
  | cons t ts ih =>
    intro h
    simp only [readTerms] at h ⊢
    have hfirst : (scope.readTerm t).2.Clean := (readTerms_reports ts _).toExtends.clean h
    obtain ⟨hread, hdefines⟩ := readTerm_clean hfirst
    rw [hread] at h ⊢
    obtain ⟨hreads, hothers⟩ := ih h
    rw [hreads]
    refine ⟨rfl, fun name hname => ?_⟩
    rw [List.flatMap_cons, List.mem_append] at hname
    rcases hname with hname | hname
    · exact hdefines name hname
    · exact hothers name hname

theorem readOperand_clean :
    ∀ {x : Operand}, (readOperand x scope).Clean →
      ∀ name ∈ x.reads, scope.defines name = true := by
  intro x
  induction x with
  | term t =>
    intro h
    exact (readTerm_clean h).2
  | condition negated r left right ihleft ihright =>
    intro h name hname
    rw [readOperand] at h
    have hleft : (readOperand left scope).Clean := (readOperand_reports right _).toExtends.clean h
    rw [(readOperand_reports left scope).eq_of_clean hleft] at h
    rw [Operand.reads, List.mem_append] at hname
    rcases hname with hname | hname
    · exact ihleft hleft name hname
    · exact ihright h name hname

/-- A condition that is not reported on changes nothing, and its variables are defined. -/
theorem readCondition_clean {c : Condition} (h : (scope.readCondition c).Clean) :
    scope.readCondition c = scope ∧ ∀ name ∈ c.reads, scope.defines name = true :=
  ⟨(readCondition_reports c scope).eq_of_clean h,
    readOperand_clean (x := .condition c.negated c.relation c.left c.right) h⟩

/-! ## Clean statements

What a clean walk says of each form: which names its reads found, and what is left of the scope. -/

/-- An assignment that is not reported on defines its target, and all it reads is defined. -/
theorem assign_clean {target : Variable} {value : Value} {operator : Option Arithmetic}
    (h : (scope.assign target value operator).Clean) :
    scope.assign target value operator = scope.define target.name ∧
      ∀ name ∈ target.readsInUpdate operator ++ value.reads, scope.defines name = true := by
  have hvalue : ((scope.readTarget target operator).2.readValue value).2.Clean := by
    simp only [assign] at h
    split at h
    · exact (extends_define _ _).clean h
    · exact h
  have htarget : (scope.readTarget target operator).2.Clean :=
    (readValue_reports value _).toExtends.clean hvalue
  have hold : scope.readTarget target operator = (true, scope) ∧
      ∀ name ∈ target.readsInUpdate operator, scope.defines name = true := by
    cases operator with
    | none => exact ⟨rfl, by simp [Variable.readsInUpdate]⟩
    | some operator =>
      obtain ⟨hread, hdefines⟩ := readVar_clean htarget
      exact ⟨hread, by simpa [Variable.readsInUpdate] using hdefines⟩
  rw [hold.1] at hvalue
  have hnew : scope.readValue value = (true, scope) ∧
      ∀ name ∈ value.reads, scope.defines name = true := by
    cases value with
    | term t => exact readTerm_clean hvalue
    | input prompt => exact readTerms_clean hvalue
  refine ⟨by simp [assign, hold.1, hnew.1], fun name hname => ?_⟩
  rcases List.mem_append.1 hname with hname | hname
  · exact hold.2 name hname
  · exact hnew.2 name hname

/-- A clean block leaves the scope as it was, and its statements were clean in a frame
of their own. -/
theorem block_clean {b : Block} (h : (block b scope).Clean) :
    block b scope = scope ∧ (statements b.statements scope.enter).Clean := by
  refine ⟨(block_reports b scope).eq_of_clean h, ?_⟩
  obtain ⟨ss, ds⟩ := b
  rw [block] at h
  exact h

/-- If nothing is reported in a loop, nothing is in its test, nor in its body. -/
theorem whileLoop_clean {test : Condition} {body : Block}
    (h : (statement (.whileLoop test body) scope).Clean) :
    statement (.whileLoop test body) scope = scope ∧
      (∀ name ∈ test.reads, scope.defines name = true) ∧
      (statements body.statements scope.enter).Clean := by
  rw [statement] at h ⊢
  obtain ⟨htest, hdefines⟩ := readCondition_clean ((block_reports body _).toExtends.clean h)
  rw [htest] at h ⊢
  obtain ⟨hblock, hbody⟩ := block_clean h
  exact ⟨hblock, hdefines, hbody⟩

/-- If nothing is reported in a loop with its test behind, what the test reads is defined
after the body. -/
theorem untilLoop_clean {body : Block} {test : Condition}
    (h : (statement (.untilLoop body test) scope).Clean) :
    statement (.untilLoop body test) scope = scope ∧
      (statements body.statements scope.enter).Clean ∧
      ∀ name ∈ test.reads, (statements body.statements scope.enter).defines name = true := by
  obtain ⟨ss, ds⟩ := body
  rw [statement] at h ⊢
  have hread : ((statements ss scope.enter).readCondition test).Clean := h
  have hbody : (statements ss scope.enter).Clean :=
    (readCondition_reports test _).toExtends.clean hread
  refine ⟨?_, hbody, (readCondition_clean hread).2⟩
  refine (reports_leave_of_enter ?_).eq_of_clean h
  exact (statements_extends ss scope.enter).trans (readCondition_reports test _).toExtends

/-- If nothing is reported in a chain of branches, nothing is in its first one, nor
in the others. -/
theorem branch_clean {test : Condition} {body : Block} {rest : List (Option Condition × Block)}
    (h : (choice ((some test, body) :: rest) scope).Clean) :
    (∀ name ∈ test.reads, scope.defines name = true) ∧
      (statements body.statements scope.enter).Clean ∧ (choice rest scope).Clean := by
  rw [choice] at h
  have hblock := (choice_reports rest _).toExtends.clean h
  obtain ⟨htest, hdefines⟩ := readCondition_clean ((block_reports body _).toExtends.clean hblock)
  rw [htest] at h hblock
  rw [(block_clean hblock).1] at h
  exact ⟨hdefines, (block_clean hblock).2, h⟩

theorem otherwise_clean {body : Block} {rest : List (Option Condition × Block)}
    (h : (choice ((none, body) :: rest) scope).Clean) :
    (statements body.statements scope.enter).Clean := by
  rw [choice] at h
  exact (block_clean ((choice_reports rest _).toExtends.clean h)).2

/-- If nothing is reported in a switch, nothing is in any of its arms. -/
theorem arm_clean {arms : List (Literal × Block)} {label : Literal} {body : Block} :
    (switch arms scope).Clean → (label, body) ∈ arms →
      (statements body.statements scope.enter).Clean := by
  induction arms with
  | nil =>
    intro _ hmem
    cases hmem
  | cons arm rest ih =>
    intro h hmem
    rw [switch] at h
    obtain ⟨hblock, hbody⟩ := block_clean ((switch_reports rest _).toExtends.clean h)
    rw [hblock] at h
    cases hmem with
    | head => exact hbody
    | tail _ hmem => exact ih h hmem

/-! ## The walk covers every path -/

/-- Every name that the scope defines is bound by the history. -/
def Covers (scope : Scope) (history : List Event) : Prop :=
  ∀ name, scope.defines name = true → Bound history name

/-- What happens later does not make a scope claim too much. -/
theorem Covers.append {history : List Event} (h : Covers scope history) (more : List Event) :
    Covers scope (history ++ more) :=
  fun name hname => (h name hname).append_right more

theorem Covers.enter {history : List Event} (h : Covers scope history) :
    Covers scope.enter history :=
  fun name hname => h name (by simpa [Scope.enter, defines] using hname)

/-- A scope may take up a name that is bound. -/
theorem Covers.define {history : List Event} {name : String} (h : Covers scope history)
    (hname : Bound history name) : Covers (scope.define name) history := by
  intro other hother
  rw [defines, Scope.define, List.any_eq_true] at hother
  obtain ⟨frame, hframe, hmem⟩ := hother
  cases hframes : scope.frames with
  | nil => simp [hframes] at hframe
  | cons top below =>
    have hdefines : ∀ f ∈ scope.frames, other ∈ f → Bound history other := fun f hf hmem =>
      h other (by simpa [defines] using ⟨f, hf, hmem⟩)
    simp only [hframes, List.modifyHead_cons, List.mem_cons] at hframe
    rcases hframe with rfl | hframe
    · rw [List.contains_iff_mem, List.mem_insert_iff] at hmem
      rcases hmem with rfl | hmem
      · exact hname
      · exact hdefines top (by simp [hframes]) hmem
    · exact hdefines frame (by simp [hframes, hframe]) (List.contains_iff_mem.1 hmem)

theorem Covers.assign {history : List Event} (h : Covers scope history) (name : String) :
    Covers (scope.define name) (history ++ [.assign name]) :=
  (h.append _).define (Or.inl (by simp))

/-- Reads of names that a scope defines are justified. -/
theorem Covers.reads {history : List Event} {names : List String} (h : Covers scope history)
    (hnames : ∀ name ∈ names, scope.defines name = true) :
    Justified history (Event.reads names) :=
  justified_reads fun name hname => h name (hnames name hname)

end Scope

/-- The walk over a piece of code. -/
def Code.walk : Code → Scope → Scope
  | .statement s, scope => scope.statement s
  | .statements ss, scope => scope.statements ss
  | .passes counter body, scope => (scope.define counter.name).block body
  | .branches bs, scope => scope.choice bs
  | .arms choices, scope => scope.switch choices

/-- On every path of code whose walk is clean, every read is bound by what happened before it, and
what the walk leaves defined is bound in the end. -/
theorem Path.sound {code : Code} {events : List Event} (h : Path code events) :
    ∀ {scope : Scope} {history : List Event}, (code.walk scope).Clean → scope.Covers history →
      Justified history events ∧ (code.walk scope).Covers (history ++ events) := by
  -- a loop body is walked once, so each pass starts again from the scope in front of the loop
  induction h with
  | assign target value operator =>
    intro scope history hclean hcovers
    rw [Code.walk, Scope.statement] at hclean ⊢
    obtain ⟨hassign, hreads⟩ := Scope.assign_clean hclean
    refine ⟨justified_append.2 ⟨hcovers.reads hreads, trivial⟩, ?_⟩
    rw [hassign, ← List.append_assoc]
    exact (hcovers.append _).assign target.name
  | output terms =>
    intro scope history hclean hcovers
    rw [Code.walk, Scope.statement] at hclean ⊢
    obtain ⟨hread, hreads⟩ := Scope.readTerms_clean hclean
    rw [hread]
    exact ⟨hcovers.reads hreads, hcovers.append _⟩
  | whileEnd test body =>
    intro scope history hclean hcovers
    obtain ⟨hloop, hreads, -⟩ := Scope.whileLoop_clean hclean
    rw [Code.walk, hloop]
    exact ⟨hcovers.reads hreads, hcovers.append _⟩
  | whilePass _ _ ihpass ihothers =>
    intro scope history hclean hcovers
    obtain ⟨-, hreads, hbody⟩ := Scope.whileLoop_clean hclean
    obtain ⟨hpass, -⟩ := ihpass hbody (hcovers.append _).enter
    obtain ⟨hothers, hlast⟩ := ihothers hclean ((hcovers.append _).append _)
    refine ⟨justified_append.2 ⟨hcovers.reads hreads, justified_append.2 ⟨hpass, hothers⟩⟩, ?_⟩
    simpa only [List.append_assoc] using hlast
  | untilEnd _ ihpass =>
    intro scope history hclean hcovers
    obtain ⟨hloop, hbody, hreads⟩ := Scope.untilLoop_clean hclean
    obtain ⟨hpass, hafter⟩ := ihpass hbody hcovers.enter
    rw [Code.walk, hloop]
    exact ⟨justified_append.2 ⟨hpass, hafter.reads hreads⟩, hcovers.append _⟩
  | untilPass _ _ ihpass ihothers =>
    intro scope history hclean hcovers
    obtain ⟨-, hbody, hreads⟩ := Scope.untilLoop_clean hclean
    obtain ⟨hpass, hafter⟩ := ihpass hbody hcovers.enter
    obtain ⟨hothers, hlast⟩ := ihothers hclean (hcovers.append _)
    refine ⟨justified_append.2 ⟨justified_append.2 ⟨hpass, hafter.reads hreads⟩, hothers⟩, ?_⟩
    simpa only [List.append_assoc] using hlast
  | forIdle counter start stop step body =>
    intro scope history hclean hcovers
    rw [Code.walk, Scope.statement] at hclean ⊢
    rw [(Scope.block_clean hclean).1]
    exact ⟨trivial, (hcovers.append _).define (Or.inr (by simp))⟩
  | forPasses _ ih =>
    intro scope history hclean hcovers
    rw [Code.walk, Scope.statement] at hclean ⊢
    exact ih hclean hcovers
  | @lastPass counter body pass _ ihpass =>
    intro scope history hclean hcovers
    obtain ⟨hblock, hbody⟩ := Scope.block_clean hclean
    -- the counter is defined around the body, and bound since this pass has assigned it
    have hcounter := hcovers.assign counter.name
    obtain ⟨hpass, -⟩ := ihpass hbody hcounter.enter
    refine ⟨hpass, ?_⟩
    rw [Code.walk, hblock]
    simpa using hcounter.append pass
  | @nextPass counter body pass others _ _ ihpass ihothers =>
    intro scope history hclean hcovers
    obtain ⟨hblock, hbody⟩ := Scope.block_clean hclean
    obtain ⟨hpass, -⟩ := ihpass hbody (hcovers.assign counter.name).enter
    obtain ⟨hothers, hlast⟩ := ihothers hclean ((hcovers.append [.assign counter.name]).append pass)
    refine ⟨justified_append.2 ⟨hpass, hothers⟩, ?_⟩
    simpa using hlast
  | choice _ ih =>
    intro scope history hclean hcovers
    rw [Code.walk, Scope.statement] at hclean ⊢
    exact ih hclean hcovers
  | noBranch =>
    intro scope history hclean hcovers
    rw [Code.walk, Scope.choice]
    exact ⟨trivial, hcovers.append _⟩
  | branchTaken _ ih =>
    intro scope history hclean hcovers
    obtain ⟨hreads, hbody, -⟩ := Scope.branch_clean hclean
    obtain ⟨hevents, -⟩ := ih hbody (hcovers.append _).enter
    refine ⟨justified_append.2 ⟨hcovers.reads hreads, hevents⟩, ?_⟩
    rw [Code.walk, (Scope.choice_reports _ scope).eq_of_clean hclean]
    exact hcovers.append _
  | branchPassed _ ih =>
    intro scope history hclean hcovers
    obtain ⟨hreads, -, hrest⟩ := Scope.branch_clean hclean
    obtain ⟨hevents, -⟩ := ih hrest (hcovers.append _)
    refine ⟨justified_append.2 ⟨hcovers.reads hreads, hevents⟩, ?_⟩
    rw [Code.walk, (Scope.choice_reports _ scope).eq_of_clean hclean]
    exact hcovers.append _
  | otherwise _ ih =>
    intro scope history hclean hcovers
    obtain ⟨hevents, -⟩ := ih (Scope.otherwise_clean hclean) hcovers.enter
    refine ⟨hevents, ?_⟩
    rw [Code.walk, (Scope.choice_reports _ scope).eq_of_clean hclean]
    exact hcovers.append _
  | @switch subject arms events _ ih =>
    intro scope history hclean hcovers
    rw [Code.walk, Scope.statement] at hclean ⊢
    have hread := (Scope.switch_reports arms _).toExtends.clean hclean
    obtain ⟨hsubject, hdefines⟩ := Scope.readVar_clean hread
    rw [hsubject] at hclean ⊢
    obtain ⟨hevents, hlast⟩ := ih hclean (hcovers.append [.read subject.name])
    refine ⟨⟨hcovers _ hdefines, hevents⟩, ?_⟩
    simpa [Code.walk] using hlast
  | noArm arms =>
    intro scope history hclean hcovers
    rw [Code.walk, (Scope.switch_reports arms scope).eq_of_clean hclean]
    exact ⟨trivial, hcovers.append _⟩
  | arm hmem _ ih =>
    intro scope history hclean hcovers
    obtain ⟨hevents, -⟩ := ih (Scope.arm_clean hclean hmem) hcovers.enter
    refine ⟨hevents, ?_⟩
    rw [Code.walk, (Scope.switch_reports _ scope).eq_of_clean hclean]
    exact hcovers.append _
  | nil =>
    intro scope history hclean hcovers
    rw [Code.walk, Scope.statements]
    exact ⟨trivial, hcovers.append _⟩
  | @cons s ss first others _ _ ihfirst ihothers =>
    intro scope history hclean hcovers
    rw [Code.walk, Scope.statements] at hclean ⊢
    obtain ⟨hfirst, hmid⟩ := ihfirst ((Scope.statements_extends ss _).clean hclean) hcovers
    obtain ⟨hothers, hlast⟩ := ihothers hclean hmid
    refine ⟨justified_append.2 ⟨hfirst, hothers⟩, ?_⟩
    simpa [Code.walk] using hlast

/-- In a program without reported reads, a variable that is read on a path was assigned earlier on
it, or a counting loop over it made no pass earlier on it. -/
theorem Program.read_bound_of_undefinedReads_eq_nil {p : Program} (hp : p.undefinedReads = [])
    {before after : List Event} {name : String}
    (hpath : Path (.statements p.body.statements) (before ++ .read name :: after)) :
    Event.assign name ∈ before ∨ Event.idle name ∈ before := by
  have hclean : (Scope.empty.block p.body).Clean := Array.toList_eq_nil_iff.1 hp
  have hcovers : Scope.empty.enter.Covers [] := by
    intro name hname
    simp [Scope.empty, Scope.enter, Scope.defines] at hname
  obtain ⟨hjustified, -⟩ := hpath.sound (Scope.block_clean hclean).2 hcovers
  exact hjustified.bound

/-- Assigns the counter of `idleCounterProgram` to another variable. -/
def copyCounterBlock : Block :=
  .mk [.assign ⟨"A", ⟨2, 0⟩⟩ (.term (.var ⟨"I", ⟨2, 2⟩⟩)) none] []

/-- Compares that variable with the counter. -/
def copyEqualsCounter : Condition :=
  ⟨false, .equal, .term (.var ⟨"A", ⟨3, 0⟩⟩), .term (.var ⟨"I", ⟨3, 2⟩⟩)⟩

/-- A counting loop that makes no pass, and a loop whose test after each pass reads the counter and
what the pass assigned. -/
def idleCounterProgram : Program :=
  ⟨"idle", .mk
    [.forLoop ⟨"I", ⟨1, 0⟩⟩ (.ofNat 2) (.ofNat 1) (.ofNat 1) (.mk [] []),
      .untilLoop copyCounterBlock copyEqualsCounter] []⟩

/-- The last read of the counter is bound only because the loop over it made no pass. -/
theorem idleCounterProgram_read_bound :
    idleCounterProgram.undefinedReads = [] ∧
      Path (.statements idleCounterProgram.body.statements)
        ([.idle "I", .read "I", .assign "A", .read "A"] ++ .read "I" :: []) ∧
      (Event.assign "I" ∈ [.idle "I", .read "I", .assign "A", .read "A"] ∨
        Event.idle "I" ∈ [.idle "I", .read "I", .assign "A", .read "A"]) := by
  have hreads : idleCounterProgram.undefinedReads = [] := by decide +kernel
  have hpass : Path (.statements copyCounterBlock.statements) [.read "I", .assign "A"] :=
    .cons (.assign _ _ _) .nil
  have huntil : Path (.statement (.untilLoop copyCounterBlock copyEqualsCounter))
      [.read "I", .assign "A", .read "A", .read "I"] :=
    .untilEnd hpass
  have hpath : Path (.statements idleCounterProgram.body.statements)
      ([.idle "I", .read "I", .assign "A", .read "A"] ++ .read "I" :: []) :=
    show Path _ ([.idle "I"] ++ ([.read "I", .assign "A", .read "A", .read "I"] ++ [])) from
      .cons (.forIdle _ _ _ _ _) (.cons huntil .nil)
  exact ⟨hreads, hpath, Program.read_bound_of_undefinedReads_eq_nil hreads hpath⟩

end Zed
