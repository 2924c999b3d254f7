import Zed.Proofs.Meaning.Simulation
import Zed.Proofs.Script.Text

/-!
# Scripts mean what programs mean

The simulations of the compound statements are put together along the syntax tree, so every
program that is well formed over an alphabet without the number of a pass is simulated by
its Python tree. The alphabet of source texts is such a one, and the tree is what Python
reads in the script. So the script of a program that was read from a source does exactly
what the program does: `Program.functionBody_runs_iff`.
-/

set_option autoImplicit false

namespace Zed

open Python

variable {I : Primitives}

/-! ## Statements -/

section Statements

variable {a : Alphabet} (ha : ∀ x, a.name x → x ≠ Script.passNumber)
include ha

/-- The line for an assignment does what the assignment does. -/
theorem simulates_assign {target : Variable} {value : Value} (hvalue : value.WellFormed a) :
    Simulates (Runs (.statement (.assign target value none) : Work I))
      (.suite [.assign target.name value.toExpr]) := by
  apply Simulates.simple
  · intro s t s' hst hrun
    cases hrun with
    | assign heval =>
      have hexpr := value.toExpr_eval ha hst hvalue
      rw [heval, Option.map_some] at hexpr
      exact ⟨_, .assign hexpr, (hst.follow (Value.eval_store heval)).set _ _⟩
  · intro s t exit t' hst hexec
    cases hexec with
    | assign hexpr =>
      rw [value.toExpr_eval ha hst hvalue] at hexpr
      obtain ⟨⟨v, s'⟩, heval, heq⟩ := Option.map_eq_some_iff.1 hexpr
      cases heq
      exact ⟨rfl, _, .assign heval, (hst.follow (Value.eval_store heval)).set _ _⟩

/-- The call of the helper does what an assignment with an operator does: the target is
read once more. -/
theorem simulates_update {target : Variable} {value : Value} {operator : Arithmetic}
    (htarget : a.name target.name) (hvalue : value.WellFormed a) :
    Simulates (Runs (.statement (.assign target value (some operator)) : Work I))
      (.suite [.assign target.name
        (.call "zedAssign" [.name target.name, value.toExpr,
          .text operator.symbol.spelling])]) := by
  -- the call evaluates to the update of the old value, whether it succeeds or not
  have heval : ∀ s t : State I, s.Agree t →
      (Expr.call "zedAssign"
          [.name target.name, value.toExpr, .text operator.symbol.spelling]).eval t
        = (s.store target.name).bind fun old => (value.eval I s).bind fun r =>
            (I.update old r.1 (I.text operator.symbol.spelling)).map
              fun w => (w, t.follow r.2) := by
    intro s t hst
    rw [Expr.eval_call, Expr.evalAll_cons, Expr.eval_name, ← hst.store _ (ha _ htarget)]
    cases s.store target.name with
    | none => rfl
    | some old =>
      simp only [Option.map_some, Option.bind_some, Expr.evalAll_cons,
        value.toExpr_eval ha hst hvalue]
      cases value.eval I s with
      | none => rfl
      | some r => simp [invoke]
  apply Simulates.simple
  · intro s t s' hst hrun
    cases hrun with
    | @update _ s₁ _ _ _ old v w hold hv hw =>
      have hexpr := heval s t hst
      rw [hold, hv, Option.bind_some, Option.bind_some, hw, Option.map_some] at hexpr
      exact ⟨_, .assign hexpr, (hst.follow (Value.eval_store hv)).set _ _⟩
  · intro s t exit t' hst hexec
    cases hexec with
    | assign hexpr =>
      rw [heval s t hst] at hexpr
      obtain ⟨old, hold, hexpr⟩ := Option.bind_eq_some_iff.1 hexpr
      obtain ⟨⟨v, s'⟩, hv, hexpr⟩ := Option.bind_eq_some_iff.1 hexpr
      obtain ⟨w, hw, heq⟩ := Option.map_eq_some_iff.1 hexpr
      cases heq
      exact ⟨rfl, _, .update hold hv hw, (hst.follow (Value.eval_store hv)).set _ _⟩

/-- The print does what the output does. -/
theorem simulates_output {terms : List Term} (hterms : ∀ e ∈ terms, e.WellFormed a) :
    Simulates (Runs (.statement (.output terms) : Work I))
      (.suite [.print (terms.map Term.toExpr) ""]) := by
  apply Simulates.simple
  · intro s t s' hst hrun
    cases hrun with
    | output hjoined =>
      rw [Term.joined_eq] at hjoined
      obtain ⟨texts, htexts, rfl⟩ := Option.map_eq_some_iff.1 hjoined
      obtain ⟨vs, hvs, htexts⟩ := Option.bind_eq_some_iff.1 htexts
      have hall := Term.evalAll_toExpr ha hst hterms
      rw [hvs, Option.map_some] at hall
      exact ⟨_, .print hall htexts, hst.print _⟩
  · intro s t exit t' hst hexec
    cases hexec with
    | print hall htexts =>
      rw [Term.evalAll_toExpr ha hst hterms] at hall
      obtain ⟨vs, hvs, heq⟩ := Option.map_eq_some_iff.1 hall
      cases heq
      refine ⟨rfl, _, .output ?_, hst.print _⟩
      rw [Term.joined_eq, hvs, Option.bind_some, htexts, Option.map_some]

/-- The expression for a condition tests it. -/
theorem Condition.tests {c : Condition} (hc : c.WellFormed a) : Tests c.toExpr (c.eval I) :=
  Tests.of_eval fun _ _ hst => c.toExpr_eval ha hst hc

/-- The comparison with the subject tests whether an arm matches. -/
theorem Literal.tests {subject : String} (hsubject : a.name subject) (label : Literal) :
    Tests (.binary (.compare .equal) (.name subject) label.toExpr) (label.matches I subject) := by
  have heval : ∀ s t : State I, s.Agree t →
      (Expr.binary (.compare .equal) (.name subject) label.toExpr).eval t
        = ((s.store subject).bind fun v => I.compare .equal v (I.literal label)).map
            fun v => (v, t) := by
    intro s t hst
    rw [Expr.eval_compare, Expr.eval_name, ← hst.store _ (ha _ hsubject)]
    cases s.store subject with
    | none => rfl
    | some v => simp [label.toExpr_eval]
  have hmatches : label.matches I subject = fun s : State I =>
      ((s.store subject).bind fun v => I.compare .equal v (I.literal label)).map I.holds := by
    funext s
    unfold Literal.matches
    cases s.store subject with
    | none => rfl
    | some v => cases hc : I.compare .equal v (I.literal label) <;> simp [hc]
  rw [hmatches]
  exact Tests.of_eval heval

omit ha in
/-- An empty block becomes a suite that does nothing. -/
theorem simulates_suite {ss : List Statement} {ds : List Diagnostic}
    (h : Simulates (Runs (.statements ss : Work I)) (.suite (Statement.allToPython ss))) :
    Simulates (Runs (.statements (Block.mk ss ds).statements : Work I))
      (.suite (Block.mk ss ds).toSuite) := by
  cases ss with
  | nil => exact simulates_pass
  | cons first others => exact h

set_option linter.unusedSectionVars false in
mutual

/-- The lines for a statement do what the statement does. The cases are those of the statements, and
the bodies come from the recursion. -/
theorem Statement.simulates : ∀ st : Statement, st.WellFormed a →
    Simulates (Runs (.statement st : Work I)) (.suite st.toPython)
  | .assign target value none, h => simulates_assign ha (Statement.wellFormed_assign.1 h).2
  | .assign target value (some operator), h => by
    obtain ⟨htarget, hvalue⟩ := Statement.wellFormed_assign.1 h
    exact simulates_update ha htarget hvalue
  | .output terms, h => simulates_output ha (Statement.wellFormed_output.1 h)
  | .whileLoop test body, h => by
    obtain ⟨htest, hbody⟩ := Statement.wellFormed_whileLoop.1 h
    exact simulates_while (body.simulates hbody) (test.tests ha htest)
  | .untilLoop body test, h => by
    obtain ⟨hbody, htest⟩ := Statement.wellFormed_untilLoop.1 h
    exact simulates_until (body.simulates hbody) (test.tests ha htest)
  | .forLoop counter start stop step body, h => by
    obtain ⟨_, _, _, _, _, hbody⟩ := Statement.wellFormed_forLoop.1 h
    rw [Statement.toPython]
    split
    · next hwhole => exact simulates_forWhole (body.simulates hbody) hwhole
    · next hwhole =>
      -- The suite begins with the counter, so the body needs no command that does nothing.
      exact simulates_forNumbered (body.simulatesPlain hbody) (Bool.eq_false_iff.2 hwhole)
  | .choice [], h => absurd h Statement.not_wellFormed_choice_nil
  | .choice ((none, _) :: _), h => absurd h Statement.not_wellFormed_choice_none
  | .choice ((some test, body) :: others), h => by
    obtain ⟨htest, hbody, hothers⟩ := Statement.wellFormed_choice.1 h
    refine Simulates.congr (simulates_branch (body.simulates hbody) (test.tests ha htest)
      (Statement.branchesSimulate others hothers)) fun s s' => ⟨.choice, ?_⟩
    intro hrun
    cases hrun with
    | choice hrun => exact hrun
  | .switch subject [], h => by
    refine simulates_pass.congr fun s s' => ⟨?_, ?_⟩
    · intro hrun
      cases hrun
      exact .switch .noArm
    · intro hrun
      cases hrun with
      | switch hrun =>
        cases hrun
        exact .nil
  | .switch subject ((label, body) :: others), h => by
    obtain ⟨hsubject, harms⟩ := Statement.wellFormed_switch.1 h
    refine Simulates.congr (Statement.armsSimulate hsubject ((label, body) :: others) harms)
      fun s s' => ⟨.switch, ?_⟩
    intro hrun
    cases hrun with
    | switch hrun => exact hrun

/-- The lines for a list of statements do what the statements do, one after the other. -/
theorem Statement.allSimulate : ∀ ss : List Statement, Statement.allWellFormed a ss →
    Simulates (Runs (.statements ss : Work I)) (.suite (Statement.allToPython ss))
  | [], _ => simulates_nil
  | st :: ss, h => by
    obtain ⟨hst, hss⟩ := Statement.allWellFormed_cons.1 h
    refine ((Statement.simulates st hst).append (Statement.allSimulate ss hss)).congr ?_
    intro s s'
    constructor
    · rintro ⟨mid, hfirst, hothers⟩
      exact .cons hfirst hothers
    · intro hrun
      cases hrun with
      | cons hfirst hothers => exact ⟨_, hfirst, hothers⟩

/-- A suite does what its block does. The line in the suite of an empty block does nothing. -/
theorem Block.simulates : ∀ b : Block, b.WellFormed a →
    Simulates (Runs (.statements b.statements : Work I)) (.suite b.toSuite)
  | .mk ss _, h => simulates_suite (Statement.allSimulate ss (Block.wellFormed_mk.1 h))
theorem Block.simulatesPlain : ∀ b : Block, b.WellFormed a →
    Simulates (Runs (.statements b.statements : Work I)) (.suite b.toPython)
  | .mk ss _, h => Statement.allSimulate ss (Block.wellFormed_mk.1 h)

/-- The chain of tests for a choice does what its branches do. -/
theorem Statement.branchesSimulate : ∀ bs : List (Option Condition × Block),
    Statement.wellFormedBranches a bs →
    Simulates (Runs (.branches bs : Work I)) (.suite (Statement.branchesToPython bs))
  | [], _ => by
    refine simulates_nil.congr fun s s' => ⟨?_, ?_⟩
    · intro hrun
      cases hrun
      exact .noBranch
    · intro hrun
      cases hrun
      exact .nil
  | (some test, body) :: others, h => by
    obtain ⟨htest, hbody, hothers⟩ := Statement.wellFormedBranches_some.1 h
    exact simulates_branch (body.simulates hbody) (test.tests ha htest)
      (Statement.branchesSimulate others hothers)
  | (none, body) :: others, h =>
    simulates_otherwise (body.simulates (Statement.wellFormedBranches_none.1 h).1)

/-- The chain of tests for a switch does what its arms do. -/
theorem Statement.armsSimulate {subject : String} (hsubject : a.name subject) :
    ∀ arms : List (Literal × Block), Statement.wellFormedArms a arms →
    Simulates (Runs (.arms subject arms : Work I)) (.suite (Statement.armsToPython subject arms))
  | [], _ => by
    refine simulates_nil.congr fun s s' => ⟨?_, ?_⟩
    · intro hrun
      cases hrun
      exact .noArm
    · intro hrun
      cases hrun
      exact .nil
  | (label, body) :: others, h => by
    obtain ⟨_, hbody, hothers⟩ := Statement.wellFormedArms_cons.1 h
    exact simulates_arm (body.simulates hbody) (label.tests ha hsubject)
      (Statement.armsSimulate hsubject others hothers)
end

end Statements

/-! ## Scripts -/

/-- No variable of a source text has the name of the number of a pass. -/
theorem Variable.ne_passNumber_of_isName {name : String} (h : Variable.isName name = true) :
    name ≠ Script.passNumber := by
  rintro rfl
  exact absurd h (by decide)

/-- What can be seen of a state at the end of a run: what is left of the input, what was printed,
and the values of the variables that programs have. -/
structure State.Shows (t : State I) (remaining : I.Input) (printed : String)
    (values : String → Option I.Val) : Prop where
  input : t.input = remaining
  output : t.output = printed
  values : ∀ x, Variable.isName x = true → t.store x = values x

/-- States that agree show the same to the outside. -/
theorem State.Agree.shows_iff {s t : State I} (h : s.Agree t) {remaining : I.Input}
    {printed : String} {values : String → Option I.Val} :
    s.Shows remaining printed values ↔ t.Shows remaining printed values := by
  constructor
  · rintro ⟨hinput, houtput, hvalues⟩
    refine ⟨h.input ▸ hinput, h.output ▸ houtput, fun x hx => ?_⟩
    rw [← h.store x (Variable.ne_passNumber_of_isName hx)]
    exact hvalues x hx
  · rintro ⟨hinput, houtput, hvalues⟩
    refine ⟨h.input.trans hinput, h.output.trans houtput, fun x hx => ?_⟩
    rw [h.store x (Variable.ne_passNumber_of_isName hx)]
    exact hvalues x hx

/-- What runs from one state and simulates shows the same at the end. -/
theorem Simulates.shows_iff {runs : State I → State I → Prop} {w : Python.Work I}
    (h : Simulates runs w) (s : State I) {remaining : I.Input} {printed : String}
    {values : String → Option I.Val} :
    (∃ t, Exec w s .normal t ∧ t.Shows remaining printed values) ↔
      ∃ t, runs s t ∧ t.Shows remaining printed values := by
  have hself : s.Agree s := ⟨fun _ _ => rfl, rfl, rfl⟩
  constructor
  · rintro ⟨t, hexec, hshows⟩
    obtain ⟨_, s', hrun, hagree⟩ := (h s s hself).2 .normal t hexec
    exact ⟨s', hrun, hagree.shows_iff.2 hshows⟩
  · rintro ⟨s', hrun, hshows⟩
    obtain ⟨t, hexec, hagree⟩ := (h s s hself).1 s' hrun
    exact ⟨t, hexec, hagree.shows_iff.1 hshows⟩

/-- Python finds a function in the script of a program that was read from a source. For every
interpretation of the primitive operations and every input, the body of the function comes to an end
with a given rest of the input, a given output and given values of the variables exactly if the
program itself does. -/
theorem Program.functionBody_runs_iff {source : String} {p : Program}
    (h : (Reading.ofTokens (Token.ofSource source)).program = some p) :
    ∃ body, functionBody? p.script = some body ∧
      ∀ (I : Primitives) (input remaining : I.Input) (printed : String)
        (values : String → Option I.Val),
        (∃ t, Exec (.suite body) (State.start input) .normal t ∧ t.Shows remaining printed values) ↔
          ∃ t, Runs (.statements p.body.statements) (State.start input) t ∧
            t.Shows remaining printed values := by
  have hwf := Program.wellFormed_source h
  refine ⟨p.body.toSuite, Program.functionBody?_script hwf,
    fun I input remaining printed values => ?_⟩
  have hsimulates : Simulates (I := I) _ _ :=
    Block.simulates (a := .source) (fun x hx => Variable.ne_passNumber_of_isName hx) p.body hwf.body
  exact hsimulates.shows_iff (State.start input)

/-- An interpretation by texts: a value is what it is displayed as, the empty text counts as false,
and input comes in lines. -/
def Primitives.texts : Primitives where
  Val := String
  Input := List String
  whole n := n.repr
  fraction x := Script.number x
  text body := body
  truth b := if b then "True" else ""
  holds v := v ≠ ""
  compare _ v w := some (if v = w then "True" else "")
  add v w := some (v ++ w)
  mul v w := some (v ++ "*" ++ w)
  display v := some v
  round v _ := some v
  range vs := some vs
  update v w operator := some (v ++ operator ++ w)
  ask prompt input :=
    match input with
    | [] => none
    | line :: rest => some (line, rest, prompt)
  holds_truth b := by cases b <;> decide
  add_text _ _ := rfl

/-- Nested loops with fractions around a loop with its test behind, a switch without arms, and a
choice with an empty branch. -/
def nestedLoopsSource : String :=
  "PROG tour FOR X FROM 0.5 TO 2 BY 0.5 DO FOR Y FROM 0 TO 1 BY 0.25 DO"
    ++ " REPEAT DO = A IN[X + Y]: ENDDO UNTIL || ! == A X == A \"\" ENDREPEAT"
    ++ " ENDDO ENDFOR ENDDO ENDFOR SWITCH A ENDSWITCH"
    ++ " IF > A 1 DO ENDDO OTHERWISE DO = A 2 *: OUT[A]: ENDDO ENDIF ENDPROG"

theorem nestedLoopsSource_runs_iff :
    (Reading.ofTokens (Token.ofSource nestedLoopsSource)).diagnostics = [] ∧
      ∃ p, (Reading.ofTokens (Token.ofSource nestedLoopsSource)).program = some p ∧
        ∃ body, functionBody? p.script = some body ∧
          ∀ (input remaining : List String) (printed : String) (values : String → Option String),
            (∃ t : State .texts, Exec (.suite body) (State.start input) .normal t ∧
              t.Shows remaining printed values) ↔
            ∃ t : State .texts, Runs (.statements p.body.statements) (State.start input) t ∧
              t.Shows remaining printed values := by
  have hread : (Reading.ofTokens (Token.ofSource nestedLoopsSource)).diagnostics = [] ∧
      (Reading.ofTokens (Token.ofSource nestedLoopsSource)).program.isSome = true := by
    decide +kernel
  obtain ⟨p, hp⟩ := Option.isSome_iff_exists.1 hread.2
  obtain ⟨body, hbody, hruns⟩ := Program.functionBody_runs_iff hp
  exact ⟨hread.1, p, hp, body, hbody, hruns .texts⟩

end Zed
