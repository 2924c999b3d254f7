import Zed.Scope

/-!
# What a walk reports

Every report of a walk is about a read of a variable that nothing defines, with the name and the
place of the occurrence. A walk only ever adds such reports, so this is kept by each of its steps.
-/

set_option autoImplicit false

namespace Zed

/-- The diagnostic reports the read of some occurrence of a variable. -/
def Diagnostic.IsUndefinedRead (d : Diagnostic) : Prop :=
  ∃ v : Variable, d = .undefinedRead v.name v.position

namespace Scope

/-- Nothing but reads of variables is reported. -/
def ReportsReads (scope : Scope) : Prop :=
  ∀ d ∈ scope.reports, d.IsUndefinedRead

variable {scope : Scope}

/-! ## Reads -/

/-- Reading a variable reports an undefined read or nothing. -/
theorem ReportsReads.readVar (h : scope.ReportsReads) (v : Variable) :
    (scope.readVar v).2.ReportsReads := by
  rw [Scope.readVar]
  split
  · exact h
  · intro d hd
    rcases Array.mem_push.1 hd with hd | rfl
    · exact h d hd
    · exact ⟨v, rfl⟩

theorem ReportsReads.readTerm (h : scope.ReportsReads) (t : Term) :
    (scope.readTerm t).2.ReportsReads := by
  cases t with
  | var v => exact h.readVar v
  | text body => exact h
  | number value => exact h

theorem ReportsReads.readTerms (h : scope.ReportsReads) (ts : List Term) :
    (Scope.readTerms ts scope).2.ReportsReads := by
  induction ts generalizing scope with
  | nil => exact h
  | cons t ts ih => exact ih (h.readTerm t)

theorem ReportsReads.readOperand (h : scope.ReportsReads) (x : Operand) :
    (Scope.readOperand x scope).ReportsReads := by
  induction x generalizing scope with
  | term t => exact h.readTerm t
  | condition _ _ left right ihleft ihright => exact ihright (ihleft h)

/-- Reading a condition reports undefined reads only. -/
theorem ReportsReads.readCondition (h : scope.ReportsReads) (c : Condition) :
    (scope.readCondition c).ReportsReads :=
  (h.readOperand c.left).readOperand c.right

/-! ## Statements -/

/-- The target is read if there is an operator, then the value; the definition reports nothing. -/
theorem ReportsReads.assign (h : scope.ReportsReads) (target : Variable) (value : Value)
    (operator : Option Arithmetic) : (scope.assign target value operator).ReportsReads := by
  have hold : (scope.readTarget target operator).2.ReportsReads := by
    cases operator with
    | none => exact h
    | some operator => exact h.readVar target
  have hnew : ((scope.readTarget target operator).2.readValue value).2.ReportsReads := by
    cases value with
    | term t => exact hold.readTerm t
    | input prompt => exact hold.readTerms prompt
  simp only [Scope.assign]
  split
  · exact hnew
  · exact hnew

mutual

/-- Walking over a statement reports undefined reads only. -/
theorem statement_reportsReads : ∀ (s : Statement) (scope : Scope), scope.ReportsReads →
    (statement s scope).ReportsReads
  | .assign target value operator, scope, h => by
    rw [statement]
    exact h.assign target value operator
  | .output terms, scope, h => by
    rw [statement]
    exact h.readTerms terms
  | .whileLoop condition body, scope, h => by
    rw [statement]
    exact block_reportsReads body _ (h.readCondition condition)
  | .untilLoop (.mk body _) condition, scope, h => by
    rw [statement]
    exact (statements_reportsReads body scope.enter h).readCondition condition
  | .forLoop counter _ _ _ body, scope, h => by
    rw [statement]
    exact block_reportsReads body (scope.define counter.name) h
  | .choice branches, scope, h => by
    rw [statement]
    exact choice_reportsReads branches scope h
  | .switch subject arms, scope, h => by
    rw [statement]
    exact switch_reportsReads arms _ (h.readVar subject)

/-- Walking over statements reports undefined reads only. -/
theorem statements_reportsReads : ∀ (ss : List Statement) (scope : Scope), scope.ReportsReads →
    (statements ss scope).ReportsReads
  | [], scope, h => by
    rw [statements]
    exact h
  | s :: ss, scope, h => by
    rw [statements]
    exact statements_reportsReads ss _ (statement_reportsReads s scope h)

/-- Walking over a block reports undefined reads only. -/
theorem block_reportsReads : ∀ (b : Block) (scope : Scope), scope.ReportsReads →
    (block b scope).ReportsReads
  | .mk body _, scope, h => by
    rw [block]
    exact statements_reportsReads body scope.enter h

/-- Walking over branches reports undefined reads only. -/
theorem choice_reportsReads : ∀ (branches : List (Option Condition × Block)) (scope : Scope),
    scope.ReportsReads → (choice branches scope).ReportsReads
  | [], scope, h => by
    rw [choice]
    exact h
  | (some condition, body) :: rest, scope, h => by
    rw [choice]
    exact choice_reportsReads rest _ (block_reportsReads body _ (h.readCondition condition))
  | (none, body) :: rest, scope, h => by
    rw [choice]
    exact choice_reportsReads rest _ (block_reportsReads body scope h)

/-- Walking over arms reports undefined reads only. -/
theorem switch_reportsReads : ∀ (arms : List (Literal × Block)) (scope : Scope),
    scope.ReportsReads → (switch arms scope).ReportsReads
  | [], scope, h => by
    rw [switch]
    exact h
  | (_, body) :: rest, scope, h => by
    rw [switch]
    exact switch_reportsReads rest _ (block_reportsReads body scope h)

end

end Scope

/-- Checking a program reports nothing but reads of variables. -/
theorem Program.isUndefinedRead_of_mem_undefinedReads {p : Program} {d : Diagnostic}
    (h : d ∈ p.undefinedReads) : d.IsUndefinedRead := by
  have hempty : Scope.empty.ReportsReads := fun _ hd => absurd hd (Array.not_mem_empty _)
  exact Scope.block_reportsReads p.body _ hempty d (Array.mem_toList_iff.1 h)

end Zed
