import Mathlib.Data.List.Basic
import Zed.Proofs.Program.Erasure
import Zed.Scope

/-!
# Reports depend on names

What a walk reports is settled by the names of variables. The places of their occurrences are
copied into the reports, and diagnostics of blocks are not looked at. So the walks through a
program and through the same program with its places erased go side by side, report by report
(`Mirrors`), and two programs that are equal without places have the same undefined reads,
name by name (`Program.undefinedReads_names`).
-/

set_option autoImplicit false

namespace Zed

/-- The report that an occurrence of a variable is not defined. -/
def Variable.report (v : Variable) : Diagnostic :=
  .undefinedRead v.name v.position

/-- At one place, reports with different names have different words. -/
theorem Diagnostic.undefinedRead_injective (p : Position) :
    Function.Injective fun name => Diagnostic.undefinedRead name p := by
  intro a b h
  have hmessage := congrArg Diagnostic.message h
  simp only [Diagnostic.undefinedRead] at hmessage
  apply String.toList_inj.1
  have hchars := congrArg String.toList hmessage
  simp only [String.toList_append, List.append_assoc, List.append_cancel_left_eq] at hchars
  exact List.append_cancel_right hchars

namespace Scope

/-- The second scope has the same frames and the same reports with their places erased. -/
structure Mirrors (scope erased : Scope) : Prop where
  frames : erased.frames = scope.frames
  reports : ∃ vs : List Variable, scope.reports.toList = vs.map Variable.report ∧
    erased.reports.toList = vs.map fun v => v.erase.report

/-- The same answer, and scopes of which the second mirrors the first. -/
structure MirrorsRead (read erased : Bool × Scope) : Prop where
  answer : erased.1 = read.1
  scope : Mirrors read.2 erased.2

variable {scope erased : Scope} {report : List Diagnostic → List Diagnostic}

/-- A definition keeps the frames the same and reports nothing. -/
theorem Mirrors.define (h : Mirrors scope erased) (name : String) :
    Mirrors (scope.define name) (erased.define name) := by
  refine ⟨?_, h.reports⟩
  rw [Scope.define, Scope.define, h.frames]

theorem Mirrors.enter (h : Mirrors scope erased) : Mirrors scope.enter erased.enter :=
  ⟨congrArg ([] :: ·) h.frames, h.reports⟩

theorem Mirrors.leave (h : Mirrors scope erased) : Mirrors scope.leave erased.leave :=
  ⟨congrArg List.tail h.frames, h.reports⟩

/-! ## Reads -/

/-- The same variable is read, and reported without its position if it is undefined. -/
theorem Mirrors.readVar (h : Mirrors scope erased) (v : Variable) :
    MirrorsRead (scope.readVar v) (erased.readVar v.erase) := by
  have hdefines : erased.defines v.erase.name = scope.defines v.name := by
    rw [defines, h.frames]
    rfl
  rw [Scope.readVar, Scope.readVar, hdefines]
  split
  · exact ⟨rfl, h⟩
  · obtain ⟨vs, hvs, hes⟩ := h.reports
    refine ⟨rfl, h.frames, vs ++ [v], ?_, ?_⟩
    · rw [Array.toList_push, hvs, List.map_append]
      rfl
    · rw [Array.toList_push, hes, List.map_append]
      rfl

theorem Mirrors.readTerm (h : Mirrors scope erased) (t : Term) :
    MirrorsRead (scope.readTerm t) (erased.readTerm t.erase) := by
  cases t with
  | var v => exact h.readVar v
  | text body => exact ⟨rfl, h⟩
  | number value => exact ⟨rfl, h⟩

/-- The same variables are read, one after the other. -/
theorem Mirrors.readTerms (h : Mirrors scope erased) (ts : List Term) :
    MirrorsRead (Scope.readTerms ts scope) (Scope.readTerms (ts.map Term.erase) erased) := by
  induction ts generalizing scope erased with
  | nil => exact ⟨rfl, h⟩
  | cons t ts ih =>
    have hfirst := h.readTerm t
    have hothers := ih hfirst.scope
    refine ⟨?_, hothers.scope⟩
    show (_ && _) = (_ && _)
    rw [hfirst.answer, hothers.answer]

theorem Mirrors.readValue (h : Mirrors scope erased) (value : Value) :
    MirrorsRead (scope.readValue value) (erased.readValue value.erase) := by
  cases value with
  | term t => exact h.readTerm t
  | input prompt => exact h.readTerms prompt

theorem Mirrors.readTarget (h : Mirrors scope erased) (target : Variable)
    (operator : Option Arithmetic) :
    MirrorsRead (scope.readTarget target operator) (erased.readTarget target.erase operator) := by
  cases operator with
  | none => exact ⟨rfl, h⟩
  | some operator => exact h.readVar target

theorem Mirrors.readOperand (h : Mirrors scope erased) (x : Operand) :
    Mirrors (Scope.readOperand x scope) (Scope.readOperand x.erase erased) := by
  induction x generalizing scope erased with
  | term t => exact (h.readTerm t).scope
  | condition _ _ left right ihleft ihright => exact ihright (ihleft h)

/-- The same variables are read in both operands. -/
theorem Mirrors.readCondition (h : Mirrors scope erased) (c : Condition) :
    Mirrors (scope.readCondition c) (erased.readCondition c.erase) :=
  (h.readOperand c.left).readOperand c.right

/-! ## Statements -/

/-- The target is defined in both scopes or in none. -/
theorem Mirrors.assign (h : Mirrors scope erased) (target : Variable) (value : Value)
    (operator : Option Arithmetic) :
    Mirrors (scope.assign target value operator)
      (erased.assign target.erase value.erase operator) := by
  have hold := h.readTarget target operator
  have hnew := hold.scope.readValue value
  simp only [Scope.assign, hold.answer, hnew.answer]
  split
  · exact hnew.scope.define target.name
  · exact hnew.scope

mutual

/-- Walking over a statement keeps the scopes the same up to positions. -/
theorem statement_mirrors : ∀ (s : Statement) (scope erased : Scope), Mirrors scope erased →
    Mirrors (statement s scope) (statement (s.erase report) erased)
  | .assign target value operator, _, _, h => by
    rw [Statement.erase_assign, statement, statement]
    exact h.assign target value operator
  | .output terms, _, _, h => by
    rw [Statement.erase_output, statement, statement]
    exact (h.readTerms terms).scope
  | .whileLoop test body, _, _, h => by
    rw [Statement.erase_whileLoop, statement, statement]
    exact block_mirrors body _ _ (h.readCondition test)
  | .untilLoop (.mk body _) test, _, _, h => by
    rw [Statement.erase_untilLoop, Block.erase_mk, statement, statement]
    exact ((statements_mirrors body _ _ h.enter).readCondition test).leave
  | .forLoop counter _ _ _ body, _, _, h => by
    rw [Statement.erase_forLoop, statement, statement]
    exact block_mirrors body _ _ (h.define counter.name)
  | .choice branches, _, _, h => by
    rw [Statement.erase_choice, statement, statement]
    exact choice_mirrors branches _ _ h
  | .switch subject arms, _, _, h => by
    rw [Statement.erase_switch, statement, statement]
    exact switch_mirrors arms _ _ (h.readVar subject).scope

/-- Walking over statements keeps the scopes the same up to positions. -/
theorem statements_mirrors : ∀ (ss : List Statement) (scope erased : Scope), Mirrors scope erased →
    Mirrors (statements ss scope) (statements (Statement.eraseAll report ss) erased)
  | [], _, _, h => by
    rw [Statement.eraseAll_nil, statements, statements]
    exact h
  | s :: ss, _, _, h => by
    rw [Statement.eraseAll_cons, statements, statements]
    exact statements_mirrors ss _ _ (statement_mirrors s _ _ h)

/-- Walking over a block keeps the scopes the same up to positions. -/
theorem block_mirrors : ∀ (b : Block) (scope erased : Scope), Mirrors scope erased →
    Mirrors (block b scope) (block (b.erase report) erased)
  | .mk body _, _, _, h => by
    rw [Block.erase_mk, block, block]
    exact (statements_mirrors body _ _ h.enter).leave

/-- Walking over branches keeps the scopes the same up to positions. -/
theorem choice_mirrors : ∀ (branches : List (Option Condition × Block)) (scope erased : Scope),
    Mirrors scope erased →
    Mirrors (choice branches scope) (choice (Statement.eraseBranches report branches) erased)
  | [], _, _, h => by
    rw [Statement.eraseBranches_nil, choice, choice]
    exact h
  | (some test, body) :: rest, _, _, h => by
    rw [Statement.eraseBranches_cons, Option.map_some, choice, choice]
    exact choice_mirrors rest _ _ (block_mirrors body _ _ (h.readCondition test))
  | (none, body) :: rest, _, _, h => by
    rw [Statement.eraseBranches_cons, Option.map_none, choice, choice]
    exact choice_mirrors rest _ _ (block_mirrors body _ _ h)

/-- Walking over arms keeps the scopes the same up to positions. -/
theorem switch_mirrors :
    ∀ (arms : List (Literal × Block)) (scope erased : Scope), Mirrors scope erased →
    Mirrors (switch arms scope) (switch (Statement.eraseArms report arms) erased)
  | [], _, _, h => by
    rw [Statement.eraseArms_nil, switch, switch]
    exact h
  | (_, body) :: rest, _, _, h => by
    rw [Statement.eraseArms_cons, switch, switch]
    exact switch_mirrors rest _ _ (block_mirrors body _ _ h)

end

end Scope

/-- The undefined reads of a program, and those of the program without places. -/
theorem Program.undefinedReads_erase (report : List Diagnostic → List Diagnostic) (p : Program) :
    ∃ vs : List Variable, p.undefinedReads = vs.map Variable.report ∧
      (p.erase report).undefinedReads = vs.map fun v => v.erase.report :=
  (Scope.block_mirrors p.body .empty .empty ⟨rfl, [], rfl, rfl⟩).reports

/-- Programs that differ only in places and diagnostics have undefined reads with the same names, in
the same order. -/
theorem Program.undefinedReads_names {p q : Program} (h : p.bare = q.bare) :
    ∃ vs ws : List Variable, p.undefinedReads = vs.map Variable.report ∧
      q.undefinedReads = ws.map Variable.report ∧ vs.map Variable.name = ws.map Variable.name := by
  obtain ⟨vs, hvs, hperased⟩ := Program.undefinedReads_erase (fun _ => []) p
  obtain ⟨ws, hws, hqerased⟩ := Program.undefinedReads_erase (fun _ => []) q
  refine ⟨vs, ws, hvs, hws, ?_⟩
  -- Both walks mirror the one through the common program, whose reports give the names back.
  have hreports : vs.map (fun v => v.erase.report) = ws.map fun v => v.erase.report := by
    rw [← hperased, ← hqerased]
    exact congrArg Program.undefinedReads h
  apply List.map_injective_iff.2 (Diagnostic.undefinedRead_injective .origin)
  rw [List.map_map, List.map_map]
  exact hreports

end Zed
