import Zed.Scope

/-!
# What a walk leaves as it was

Two relations between the scope before a walk and the scope after it. A walk that only `Reports` has
changed nothing but the reports, and those only at their end: this holds of every read, and of every
block as a whole, since a block closes the frame it opened. A statement may in addition change the
innermost frame (`Extends`).

A scope from which a walk ends without reports had none itself. In such a clean walk every read was
allowed and has left the scope unchanged.
-/

set_option autoImplicit false

namespace Zed.Scope

/-- The scopes differ at most in reports that `after` has at its end. -/
def Reports (before after : Scope) : Prop :=
  ∃ new, after = { before with reports := before.reports ++ new }

/-- The scopes have the same frames below the innermost one, and `after` has the reports of `before`
and perhaps more at their end. -/
structure Extends (before after : Scope) : Prop where
  tail_frames : after.frames.tail = before.frames.tail
  reports : ∃ new, after.reports = before.reports ++ new

variable {scope after last : Scope}

theorem Reports.refl (scope : Scope) : Reports scope scope :=
  ⟨#[], by simp⟩

/-- Scopes that only report, one after the other, only report. -/
theorem Reports.trans (h : Reports scope after) (h' : Reports after last) : Reports scope last := by
  obtain ⟨new, rfl⟩ := h
  obtain ⟨more, rfl⟩ := h'
  exact ⟨new ++ more, by simp [Array.append_assoc]⟩

/-- Who only reports leaves the frames as they are. -/
theorem Reports.frames (h : Reports scope after) : after.frames = scope.frames := by
  obtain ⟨new, rfl⟩ := h
  rfl

theorem Reports.toExtends (h : Reports scope after) : Extends scope after := by
  obtain ⟨new, rfl⟩ := h
  exact ⟨rfl, new, rfl⟩

/-- What is added in two steps is added. -/
theorem Extends.trans (h : Extends scope after) (h' : Extends after last) : Extends scope last := by
  obtain ⟨new, hnew⟩ := h.reports
  obtain ⟨more, hmore⟩ := h'.reports
  refine ⟨h'.tail_frames.trans h.tail_frames, new ++ more, ?_⟩
  rw [hmore, hnew, Array.append_assoc]

/-- Defining a name changes the innermost frame only. -/
theorem extends_define (scope : Scope) (name : String) : Extends scope (scope.define name) := by
  refine ⟨?_, #[], by simp [define]⟩
  cases h : scope.frames <;> simp [define, h]

/-- A frame that is opened before a walk and closed after it leaves the frames as they were. -/
theorem reports_leave_of_enter (h : Extends scope.enter after) : Reports scope after.leave := by
  obtain ⟨new, hnew⟩ := h.reports
  refine ⟨new, ?_⟩
  rw [leave, h.tail_frames, hnew]
  rfl

/-! ## Reads -/

/-- Reading a variable changes no frame, and takes no report back. -/
theorem readVar_reports (v : Variable) (scope : Scope) : Reports scope (scope.readVar v).2 := by
  rw [readVar]
  split
  · exact .refl scope
  · exact ⟨#[.undefinedRead v.name v.position], by simp⟩

theorem readTerm_reports (t : Term) (scope : Scope) : Reports scope (scope.readTerm t).2 := by
  cases t with
  | var v => exact readVar_reports v scope
  | text body => exact .refl scope
  | number value => exact .refl scope

/-- Reading terms changes no frame, and takes no report back. -/
theorem readTerms_reports : ∀ (ts : List Term) (scope : Scope), Reports scope (readTerms ts scope).2
  | [], scope => .refl scope
  | t :: ts, scope => (readTerm_reports t scope).trans (readTerms_reports ts _)

theorem readValue_reports (value : Value) (scope : Scope) :
    Reports scope (scope.readValue value).2 := by
  cases value with
  | term t => exact readTerm_reports t scope
  | input prompt => exact readTerms_reports prompt scope

theorem readTarget_reports (target : Variable) (operator : Option Arithmetic) (scope : Scope) :
    Reports scope (scope.readTarget target operator).2 := by
  cases operator with
  | none => exact .refl scope
  | some operator => exact readVar_reports target scope

theorem readOperand_reports : ∀ (x : Operand) (scope : Scope), Reports scope (readOperand x scope)
  | .term t, scope => readTerm_reports t scope
  | .condition _ _ left right, scope =>
    (readOperand_reports left scope).trans (readOperand_reports right _)

/-- Reading a condition changes no frame, and takes no report back. -/
theorem readCondition_reports (c : Condition) (scope : Scope) :
    Reports scope (scope.readCondition c) :=
  (readOperand_reports c.left scope).trans (readOperand_reports c.right _)

/-- A test may still be read in a frame that statements have changed. -/
theorem Extends.readCondition (h : Extends scope after) (c : Condition) :
    Extends scope (after.readCondition c) :=
  h.trans (readCondition_reports c after).toExtends

/-! ## Statements -/

/-- An assignment takes no definition back, and no report. -/
theorem assign_extends (target : Variable) (value : Value) (operator : Option Arithmetic)
    (scope : Scope) : Extends scope (scope.assign target value operator) := by
  have hreads : Reports scope ((scope.readTarget target operator).2.readValue value).2 :=
    (readTarget_reports target operator scope).trans (readValue_reports value _)
  simp only [assign]
  split
  · exact hreads.toExtends.trans (extends_define _ _)
  · exact hreads.toExtends

mutual

/-- A statement takes no definition back, and no report. -/
theorem statement_extends : ∀ (s : Statement) (scope : Scope), Extends scope (statement s scope)
  | .assign target value operator, scope => by
    rw [statement]
    exact assign_extends target value operator scope
  | .output terms, scope => by
    rw [statement]
    exact (readTerms_reports terms scope).toExtends
  | .whileLoop condition body, scope => by
    rw [statement]
    exact ((readCondition_reports condition scope).trans (block_reports body _)).toExtends
  | .untilLoop (.mk body _) condition, scope => by
    rw [statement]
    refine (reports_leave_of_enter ?_).toExtends
    exact (statements_extends body scope.enter).readCondition condition
  | .forLoop counter _ _ _ body, scope => by
    rw [statement]
    exact (extends_define scope counter.name).trans (block_reports body _).toExtends
  | .choice branches, scope => by
    rw [statement]
    exact (choice_reports branches scope).toExtends
  | .switch subject arms, scope => by
    rw [statement]
    exact ((readVar_reports subject scope).trans (switch_reports arms _)).toExtends

/-- Statements take no definition back, and no report. -/
theorem statements_extends : ∀ (ss : List Statement) (scope : Scope),
    Extends scope (statements ss scope)
  | [], scope => by
    rw [statements]
    exact (Reports.refl scope).toExtends
  | s :: ss, scope => by
    rw [statements]
    exact (statement_extends s scope).trans (statements_extends ss _)

/-- A block as a whole only adds reports. -/
theorem block_reports : ∀ (b : Block) (scope : Scope), Reports scope (block b scope)
  | .mk body _, scope => by
    rw [block]
    exact reports_leave_of_enter (statements_extends body scope.enter)

/-- Branches change no frame: theirs are closed again. -/
theorem choice_reports : ∀ (branches : List (Option Condition × Block)) (scope : Scope),
    Reports scope (choice branches scope)
  | [], scope => by
    rw [choice]
    exact .refl scope
  | (some condition, body) :: rest, scope => by
    rw [choice]
    exact ((readCondition_reports condition scope).trans (block_reports body _)).trans
      (choice_reports rest _)
  | (none, body) :: rest, scope => by
    rw [choice]
    exact (block_reports body scope).trans (choice_reports rest _)

/-- Arms change no frame: theirs are closed again. -/
theorem switch_reports : ∀ (arms : List (Literal × Block)) (scope : Scope),
    Reports scope (switch arms scope)
  | [], scope => by
    rw [switch]
    exact .refl scope
  | (_, body) :: rest, scope => by
    rw [switch]
    exact (block_reports body scope).trans (switch_reports rest _)

end

/-! ## Clean walks -/

/-- Nothing is reported. -/
def Clean (scope : Scope) : Prop :=
  scope.reports = #[]

/-- A scope without reports had none before. -/
theorem Extends.clean (h : Extends scope after) (hafter : after.Clean) : scope.Clean := by
  obtain ⟨new, hnew⟩ := h.reports
  rw [Clean, hnew, Array.append_eq_empty_iff] at hafter
  exact hafter.1

/-- A walk that only reports, and is clean, changes nothing. -/
theorem Reports.eq_of_clean (h : Reports scope after) (hafter : after.Clean) : after = scope := by
  obtain ⟨new, rfl⟩ := h
  obtain ⟨-, rfl⟩ := Array.append_eq_empty_iff.1 hafter
  simp

end Zed.Scope
