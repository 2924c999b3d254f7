import Zed.Proofs.Meaning.Agreement

/-!
# Simulation

`Simulates` says that two ways to run agree in both directions, and that the script ends as a suite
does that no `break` leaves. There is one lemma for each compound statement, which takes the
simulation of its parts as given; only the loops need an induction, over the run itself.

All loops with fractions share the variable that numbers their passes, so an inner loop overwrites
the number of an outer one. That does no harm, because the number of a pass is read only at the
beginning of the pass, right after it was assigned.
-/

set_option autoImplicit false

namespace Zed

open Python

variable {I : Primitives}

/-- From states that agree, the runs of a program described by `runs` and those of the work `w` of a
script lead to states that agree, and the work always comes to its end. -/
def Simulates (runs : State I → State I → Prop) (w : Python.Work I) : Prop :=
  ∀ s t : State I, s.Agree t →
    (∀ s', runs s s' → ∃ t', Exec w t .normal t' ∧ s'.Agree t') ∧
      ∀ exit t', Exec w t exit t' → exit = .normal ∧ ∃ s', runs s s' ∧ s'.Agree t'

/-- A suite of one statement does what this statement does. -/
theorem exec_singleton {a : Stmt} {s t : State I} {exit : Exit} :
    Exec (.suite [a]) s exit t ↔ Exec (.stmt a) s exit t := by
  constructor
  · intro h
    cases h with
    | cons ha hnil =>
      cases hnil
      exact ha
    | consLeft ha => exact ha
  · intro h
    cases exit with
    | normal => exact .cons h .nil
    | left => exact .consLeft h

section Simulation

variable {runs runs' : State I → State I → Prop}

theorem Simulates.singleton {a : Stmt} (h : Simulates runs (.stmt a)) :
    Simulates runs (.suite [a]) := by
  intro s t hst
  obtain ⟨hforward, hbackward⟩ := h s t hst
  constructor
  · intro s' hruns
    obtain ⟨t', hexec, hst'⟩ := hforward s' hruns
    exact ⟨t', exec_singleton.2 hexec, hst'⟩
  · intro exit t' hexec
    exact hbackward exit t' (exec_singleton.1 hexec)

/-- What is simulated may be described in another way. -/
theorem Simulates.congr {w : Python.Work I} (h : Simulates runs w)
    (hruns : ∀ s s', runs s s' ↔ runs' s s') : Simulates runs' w := by
  intro s t hst
  obtain ⟨hforward, hbackward⟩ := h s t hst
  constructor
  · intro s' hrun
    exact hforward s' ((hruns s s').2 hrun)
  · intro exit t' hexec
    obtain ⟨hexit, s', hrun, hst'⟩ := hbackward exit t' hexec
    exact ⟨hexit, s', (hruns s s').1 hrun, hst'⟩

/-- One suite after another. -/
theorem Simulates.append {first second : List Stmt} (hfirst : Simulates runs (.suite first))
    (hsecond : Simulates runs' (.suite second)) :
    Simulates (fun s u => ∃ t, runs s t ∧ runs' t u) (.suite (first ++ second)) := by
  intro s t hst
  constructor
  · rintro s' ⟨mid, hrun, hrun'⟩
    obtain ⟨tmid, hexec, hmid⟩ := (hfirst s t hst).1 mid hrun
    obtain ⟨t', hexec', hst'⟩ := (hsecond mid tmid hmid).1 s' hrun'
    exact ⟨t', hexec.append hexec', hst'⟩
  · intro exit t' hexec
    rcases hexec.append_inv with ⟨tmid, hexec₁, hexec₂⟩ | ⟨-, hleft⟩
    · obtain ⟨-, mid, hrun, hmid⟩ := (hfirst s t hst).2 _ _ hexec₁
      obtain ⟨hexit, s', hrun', hst'⟩ := (hsecond mid tmid hmid).2 _ _ hexec₂
      exact ⟨hexit, s', ⟨mid, hrun, hrun'⟩, hst'⟩
    · have hnormal := ((hfirst s t hst).2 _ _ hleft).1
      cases hnormal

/-- A statement without parts that gives one state, if it gives any. -/
theorem Simulates.simple {a : Stmt}
    (hforward : ∀ s t s', s.Agree t → runs s s' → ∃ t', Exec (.stmt a) t .normal t' ∧ s'.Agree t')
    (hbackward : ∀ s t exit t', s.Agree t → Exec (.stmt a) t exit t' →
      exit = .normal ∧ ∃ s', runs s s' ∧ s'.Agree t') :
    Simulates runs (.suite [a]) :=
  Simulates.singleton fun s t hst =>
    ⟨fun s' => hforward s t s' hst, fun exit t' => hbackward s t exit t' hst⟩

/-- The line in the suite of an empty block does nothing. -/
theorem simulates_pass : Simulates (Runs (.statements [] : Work I)) (.suite [.pass]) := by
  apply Simulates.simple
  · intro s t s' hst hrun
    cases hrun
    exact ⟨t, .pass, hst⟩
  · intro s t exit t' hst hexec
    cases hexec
    exact ⟨rfl, s, .nil, hst⟩

theorem simulates_nil : Simulates (Runs (.statements [] : Work I)) (.suite []) := by
  intro s t hst
  constructor
  · intro s' hrun
    cases hrun
    exact ⟨t, .nil, hst⟩
  · intro exit t' hexec
    cases hexec
    exact ⟨rfl, s, .nil, hst⟩

/-! ## Tests -/

/-- The expression decides the test: it has a value exactly if the test comes out,
and changes nothing. -/
def Tests (e : Expr) (test : State I → Option Bool) : Prop :=
  ∀ s t : State I, s.Agree t →
    (∀ b, test s = some b → ∃ v, e.eval t = some (v, t) ∧ I.holds v = b) ∧
      ∀ v t', e.eval t = some (v, t') → t' = t ∧ test s = some (I.holds v)

/-- An expression that gives the value of which the test asks whether it counts as true. -/
theorem Tests.of_eval {e : Expr} {value : State I → Option I.Val}
    (h : ∀ s t : State I, s.Agree t → e.eval t = (value s).map fun v => (v, t)) :
    Tests e fun s => (value s).map I.holds := by
  intro s t hst
  constructor
  · intro b hb
    obtain ⟨v, hv, rfl⟩ := Option.map_eq_some_iff.1 hb
    exact ⟨v, by rw [h s t hst, hv]; rfl, rfl⟩
  · intro v t' heval
    rw [h s t hst] at heval
    obtain ⟨w, hw, heq⟩ := Option.map_eq_some_iff.1 heval
    cases heq
    exact ⟨rfl, congrArg (Option.map I.holds) hw⟩

/-- A conditional does what one of two runs does, as its test says. -/
theorem Simulates.ifElse {e : Expr} {test : State I → Option Bool} {body orelse : List Stmt}
    (htest : Tests e test) (hbody : Simulates runs (.suite body))
    (horelse : Simulates runs' (.suite orelse)) :
    Simulates (fun s s' => test s = some true ∧ runs s s' ∨ test s = some false ∧ runs' s s')
      (.suite [.ifElse e body orelse]) := by
  apply Simulates.simple
  · intro s t s' hst hrun
    rcases hrun with ⟨htrue, hrun⟩ | ⟨hfalse, hrun⟩
    · obtain ⟨v, heval, hv⟩ := (htest s t hst).1 _ htrue
      obtain ⟨t', hexec, hst'⟩ := (hbody s t hst).1 s' hrun
      exact ⟨t', .ifTrue heval hv hexec, hst'⟩
    · obtain ⟨v, heval, hv⟩ := (htest s t hst).1 _ hfalse
      obtain ⟨t', hexec, hst'⟩ := (horelse s t hst).1 s' hrun
      exact ⟨t', .ifFalse heval hv hexec, hst'⟩
  · intro s t exit t' hst hexec
    cases hexec with
    | ifTrue heval hv hexec =>
      obtain ⟨rfl, htrue⟩ := (htest s t hst).2 _ _ heval
      obtain ⟨hexit, s', hrun, hst'⟩ := (hbody s _ hst).2 _ _ hexec
      exact ⟨hexit, s', .inl ⟨by rw [htrue, hv], hrun⟩, hst'⟩
    | ifFalse heval hv hexec =>
      obtain ⟨rfl, hfalse⟩ := (htest s t hst).2 _ _ heval
      obtain ⟨hexit, s', hrun, hst'⟩ := (horelse s _ hst).2 _ _ hexec
      exact ⟨hexit, s', .inr ⟨by rw [hfalse, hv], hrun⟩, hst'⟩

/-- A test that can leave the loop around it goes on if it comes out false. -/
theorem exec_leaveIf_normal {e : Expr} {test : State I → Option Bool} {s t t' : State I}
    (htest : Tests e test) (hst : s.Agree t) :
    Exec (.suite [.ifElse e [.leave] []]) t .normal t' ↔ t' = t ∧ test s = some false := by
  constructor
  · intro h
    cases exec_singleton.1 h with
    | ifTrue _ _ hleave => cases exec_singleton.1 hleave
    | ifFalse heval hv hnil =>
      obtain ⟨rfl, hfalse⟩ := (htest s t hst).2 _ _ heval
      cases hnil
      exact ⟨rfl, by rw [hfalse, hv]⟩
  · rintro ⟨rfl, hfalse⟩
    obtain ⟨v, heval, hv⟩ := (htest s _ hst).1 _ hfalse
    exact .cons (.ifFalse heval hv .nil) .nil

/-- It leaves the loop if it comes out true. -/
theorem exec_leaveIf_left {e : Expr} {test : State I → Option Bool} {s t t' : State I}
    (htest : Tests e test) (hst : s.Agree t) :
    Exec (.suite [.ifElse e [.leave] []]) t .left t' ↔ t' = t ∧ test s = some true := by
  constructor
  · intro h
    cases exec_singleton.1 h with
    | ifFalse _ _ hnil => cases hnil
    | ifTrue heval hv hleave =>
      obtain ⟨rfl, htrue⟩ := (htest s t hst).2 _ _ heval
      cases exec_singleton.1 hleave
      exact ⟨rfl, by rw [htrue, hv]⟩
  · rintro ⟨rfl, htrue⟩
    obtain ⟨v, heval, hv⟩ := (htest s _ hst).1 _ htrue
    exact .consLeft (.ifTrue heval hv (.consLeft .leave))

end Simulation

/-! ## Loops -/

section Loops

variable {test : Condition} {e : Expr} {body : Block} {suite : List Stmt}
  (hbody : Simulates (Runs (.statements body.statements : Work I)) (.suite suite))
include hbody

/-- A loop with its test in front does what the loop of the program does. -/
theorem simulates_while (htest : Tests e (test.eval I)) :
    Simulates (Runs (.statement (.whileLoop test body) : Work I))
      (.suite [.whileLoop e suite]) := by
  apply Simulates.simple
  · intro s t s' hst hrun
    -- over the run of the program
    generalize hw : Work.statement (.whileLoop test body) = w at hrun
    induction hrun generalizing t with cases hw
    | whileDone hfalse =>
      obtain ⟨v, heval, hv⟩ := (htest _ t hst).1 _ hfalse
      exact ⟨t, .whileDone heval hv, hst⟩
    | whilePass htrue hpass _ _ ih =>
      obtain ⟨v, heval, hv⟩ := (htest _ t hst).1 _ htrue
      obtain ⟨t₁, hexec, hst₁⟩ := (hbody _ t hst).1 _ hpass
      obtain ⟨t', hagain, hst'⟩ := ih t₁ hst₁ rfl
      exact ⟨t', .whilePass heval hv hexec hagain, hst'⟩
  · intro s t exit t' hst hexec
    -- over the run of the script
    generalize hw : Python.Work.stmt (.whileLoop e suite) = w at hexec
    induction hexec generalizing s with cases hw
    | whileDone heval hv =>
      obtain ⟨rfl, hfalse⟩ := (htest s _ hst).2 _ _ heval
      exact ⟨rfl, s, .whileDone (by rw [hfalse, hv]), hst⟩
    | whilePass heval hv hpass _ _ ih =>
      obtain ⟨rfl, htrue⟩ := (htest s _ hst).2 _ _ heval
      obtain ⟨-, s₁, hrun, hst₁⟩ := (hbody s _ hst).2 _ _ hpass
      obtain ⟨hexit, s', hagain, hst'⟩ := ih s₁ hst₁ rfl
      exact ⟨hexit, s', .whilePass (by rw [htrue, hv]) hrun hagain, hst'⟩
    | whileLeft heval hv hpass _ =>
      obtain ⟨rfl, -⟩ := (htest s _ hst).2 _ _ heval
      have hnormal := ((hbody s _ hst).2 _ _ hpass).1
      cases hnormal

/-- The test behind the body leaves the loop that it stands in. -/
theorem simulates_until (htest : Tests e (test.eval I)) :
    Simulates (Runs (.statement (.untilLoop body test) : Work I))
      (.suite [.whileLoop (.constant true) (suite ++ [.ifElse e [.leave] []])]) := by
  have hforever : ∀ t : State I, (Expr.constant true).eval t = some (I.truth true, t) :=
    fun t => Expr.eval_constant t true
  apply Simulates.simple
  · intro s t s' hst hrun
    generalize hw : Work.statement (.untilLoop body test) = w at hrun
    induction hrun generalizing t with cases hw
    | untilDone hpass htrue _ =>
      obtain ⟨t', hexec, hst'⟩ := (hbody _ t hst).1 _ hpass
      have hleave := (exec_leaveIf_left htest hst').2 ⟨rfl, htrue⟩
      exact ⟨t', .whileLeft (hforever t) (I.holds_truth true) (hexec.append hleave), hst'⟩
    | untilPass hpass hfalse _ _ ih =>
      obtain ⟨t₁, hexec, hst₁⟩ := (hbody _ t hst).1 _ hpass
      have hstay := (exec_leaveIf_normal htest hst₁).2 ⟨rfl, hfalse⟩
      obtain ⟨t', hagain, hst'⟩ := ih t₁ hst₁ rfl
      exact ⟨t', .whilePass (hforever t) (I.holds_truth true) (hexec.append hstay) hagain, hst'⟩
  · intro s t exit t' hst hexec
    generalize hw : Python.Work.stmt
      (.whileLoop (.constant true) (suite ++ [.ifElse e [.leave] []]))
      = w at hexec
    induction hexec generalizing s with cases hw
    | whileDone heval hv =>
      -- the condition of the loop itself never fails
      rw [hforever] at heval
      cases heval
      rw [I.holds_truth] at hv
      cases hv
    | whilePass heval hv hpass _ _ ih =>
      rw [hforever] at heval
      cases heval
      rcases hpass.append_inv with ⟨t₁, hexec, hstay⟩ | ⟨hexit, -⟩
      · obtain ⟨-, s₁, hrun, hst₁⟩ := (hbody s _ hst).2 _ _ hexec
        obtain ⟨rfl, hfalse⟩ := (exec_leaveIf_normal htest hst₁).1 hstay
        obtain ⟨hexit, s', hagain, hst'⟩ := ih s₁ hst₁ rfl
        exact ⟨hexit, s', .untilPass hrun hfalse hagain, hst'⟩
      · cases hexit
    | whileLeft heval hv hpass _ =>
      rw [hforever] at heval
      cases heval
      -- the loop is left by the test, since no statement of the body leaves it
      rcases hpass.append_inv with ⟨t₁, hexec, hleave⟩ | ⟨-, hleft⟩
      · obtain ⟨-, s₁, hrun, hst₁⟩ := (hbody s _ hst).2 _ _ hexec
        obtain ⟨rfl, htrue⟩ := (exec_leaveIf_left htest hst₁).1 hleave
        exact ⟨rfl, s₁, .untilDone hrun htrue, hst₁⟩
      · have hnormal := ((hbody s _ hst).2 _ _ hleft).1
        cases hnormal

/-- Passes that give the counter its value by themselves. -/
theorem simulates_counting {counter : String} {values : List I.Val} :
    Simulates (Runs (.counting counter values body.statements)) (.passes counter values suite) := by
  induction values with
  | nil =>
    intro s t hst
    constructor
    · intro s' hrun
      cases hrun
      exact ⟨t, .passed, hst⟩
    · intro exit t' hexec
      cases hexec
      exact ⟨rfl, s, .counted, hst⟩
  | cons v vs ih =>
    intro s t hst
    constructor
    · intro s' hrun
      cases hrun with
      | countPass hpass hothers =>
        obtain ⟨t₁, hexec, hst₁⟩ := (hbody _ _ (hst.set counter v)).1 _ hpass
        obtain ⟨t', hexec', hst'⟩ := (ih _ _ hst₁).1 _ hothers
        exact ⟨t', .nextPass hexec hexec', hst'⟩
    · intro exit t' hexec
      cases hexec with
      | nextPass hpass hothers =>
        obtain ⟨-, s₁, hrun, hst₁⟩ := (hbody _ _ (hst.set counter v)).2 _ _ hpass
        obtain ⟨hexit, s', hrun', hst'⟩ := (ih _ _ hst₁).2 _ _ hothers
        exact ⟨hexit, s', .countPass hrun hrun', hst'⟩
      | passLeft hpass =>
        have hnormal := ((hbody _ _ (hst.set counter v)).2 _ _ hpass).1
        cases hnormal

omit hbody in
/-- The value of the counter is computed from the number of the pass. -/
theorem Script.placedExpr_eval (start step : Binary64) (t : State I) (n : I.Val) :
    (placedExpr start step).eval (t.set passNumber n)
      = (I.placed start step n).map fun v => (v, t.set passNumber n) := by
  simp only [placedExpr, Expr.eval_call, Expr.eval_add, Expr.eval_mul, Expr.eval_name,
    Expr.eval_int, Expr.evalAll_cons, Expr.evalAll_nil, numberExpr_eval, State.store_set_self,
    Option.map_some, Option.bind_some, Primitives.placed, Option.bind_eq_bind]
  cases I.mul n (I.number step) with
  | none => rfl
  | some distance =>
    simp only [Option.map_some, Option.bind_some]
    cases I.add (I.number start) distance <;> simp [invoke]

omit hbody in
/-- A numbered pass: the assignment at its beginning gives the counter its value, and the rest of
the pass runs with it. -/
theorem Script.exec_placed_iff {counter : String} {start step : Binary64}
    {t t' : State I} {n : I.Val} {exit : Exit} :
    Exec (.suite (.assign counter (placedExpr start step) :: suite)) (t.set passNumber n) exit t' ↔
      ∃ v, I.placed start step n = some v ∧
        Exec (.suite suite) ((t.set passNumber n).set counter v) exit t' := by
  constructor
  · intro h
    cases h with
    | consLeft hassign => cases hassign
    | cons hassign hothers =>
      cases hassign with
      | assign heval =>
        rw [placedExpr_eval] at heval
        obtain ⟨v, hv, heq⟩ := Option.map_eq_some_iff.1 heval
        cases heq
        exact ⟨_, hv, hothers⟩
  · rintro ⟨v, hv, hothers⟩
    have heval := placedExpr_eval start step t n
    rw [hv, Option.map_some] at heval
    exact .cons (.assign heval) hothers

/-- Passes that are numbered and compute the value of the counter at their beginning. The number is
not used after that, so the body may change it. -/
theorem simulates_numbered {counter : String} {start step : Binary64} {numbers : List I.Val} :
    Simulates
      (fun s s' => ∃ values, numbers.mapM (I.placed start step) = some values ∧
        Runs (.counting counter values body.statements) s s')
      (.passes Script.passNumber numbers
        (.assign counter (Script.placedExpr start step) :: suite)) := by
  induction numbers with
  | nil =>
    intro s t hst
    constructor
    · rintro s' ⟨values, hvalues, hrun⟩
      cases hvalues
      cases hrun
      exact ⟨t, .passed, hst⟩
    · intro exit t' hexec
      cases hexec
      exact ⟨rfl, s, ⟨[], rfl, .counted⟩, hst⟩
  | cons n ns ih =>
    intro s t hst
    have hnumber := hst.set_passNumber n
    constructor
    · rintro s' ⟨values, hvalues, hrun⟩
      rw [List.mapM_cons] at hvalues
      obtain ⟨v, hv, hvalues⟩ := Option.bind_eq_some_iff.1 hvalues
      obtain ⟨vs, hvs, heq⟩ := Option.bind_eq_some_iff.1 hvalues
      cases heq
      cases hrun with
      | countPass hpass hothers =>
        obtain ⟨t₁, hexec, hst₁⟩ := (hbody _ _ (hnumber.set counter v)).1 _ hpass
        obtain ⟨t', hexec', hst'⟩ := (ih _ _ hst₁).1 _ ⟨vs, hvs, hothers⟩
        exact ⟨t', .nextPass (Script.exec_placed_iff.2 ⟨v, hv, hexec⟩) hexec', hst'⟩
    · intro exit t' hexec
      cases hexec with
      | nextPass hpass hothers =>
        obtain ⟨v, hv, hpass⟩ := Script.exec_placed_iff.1 hpass
        obtain ⟨-, s₁, hrun, hst₁⟩ := (hbody _ _ (hnumber.set counter v)).2 _ _ hpass
        obtain ⟨hexit, s', ⟨vs, hvs, hrun'⟩, hst'⟩ := (ih _ _ hst₁).2 _ _ hothers
        refine ⟨hexit, s', ⟨v :: vs, ?_, .countPass hrun hrun'⟩, hst'⟩
        rw [List.mapM_cons, hv, hvs]
        rfl
      | passLeft hpass =>
        obtain ⟨v, -, hpass⟩ := Script.exec_placed_iff.1 hpass
        have hnormal := ((hbody _ _ (hnumber.set counter v)).2 _ _ hpass).1
        cases hnormal

omit hbody in
/-- A loop over a range whose arguments do not depend on the state. -/
theorem Simulates.forRange {x : String} {es : List Expr} {arguments : Option (List I.Val)}
    {runs : List I.Val → State I → State I → Prop}
    (harguments : ∀ t : State I, Expr.evalAll es t = arguments.map fun vs => (vs, t))
    (hpasses : ∀ values, Simulates (runs values) (.passes x values suite)) :
    Simulates (fun s s' => ∃ values, arguments.bind I.range = some values ∧ runs values s s')
      (.suite [.forRange x es suite]) := by
  apply Simulates.simple
  · rintro s t s' hst ⟨values, hvalues, hrun⟩
    obtain ⟨vs, hvs, hrange⟩ := Option.bind_eq_some_iff.1 hvalues
    have heval := harguments t
    rw [hvs, Option.map_some] at heval
    obtain ⟨t', hexec, hst'⟩ := (hpasses values s t hst).1 s' hrun
    exact ⟨t', .forRange heval hrange hexec, hst'⟩
  · intro s t exit t' hst hexec
    cases hexec with
    | forRange heval hrange hexec =>
      rw [harguments t] at heval
      obtain ⟨vs, hvs, heq⟩ := Option.map_eq_some_iff.1 heval
      cases heq
      obtain ⟨hexit, s', hrun, hst'⟩ := (hpasses _ s t hst).2 _ _ hexec
      exact ⟨hexit, s', ⟨_, by rw [hvs, Option.bind_some, hrange], hrun⟩, hst'⟩

omit hbody in

/-- A counting loop runs over the values of its counter, if it has any list of them. -/
theorem runs_forLoop_iff {counter : Variable} {start stop step : Binary64} {s s' : State I} :
    Runs (.statement (.forLoop counter start stop step body)) s s' ↔
      ∃ values, I.counterValues start stop step = some values ∧
        Runs (.counting counter.name values body.statements) s s' := by
  constructor
  · intro h
    cases h with
    | forLoop hvalues hpasses => exact ⟨_, hvalues, hpasses⟩
  · rintro ⟨values, hvalues, hpasses⟩
    exact .forLoop hvalues hpasses

/-- A loop over a range of whole numbers does what a counting loop in whole numbers does. -/
theorem simulates_forWhole {counter : Variable} {start stop step : Binary64}
    (hwhole : Script.countsWhole start stop step = true) :
    Simulates (Runs (.statement (.forLoop counter start stop step body) : Work I))
      (.suite [.forRange counter.name
        [numberExpr start, .binary .add (numberExpr stop) (.int 1), numberExpr step] suite]) := by
  have harguments : ∀ t : State I,
      Expr.evalAll [numberExpr start, .binary .add (numberExpr stop) (.int 1), numberExpr step] t
        = ((I.add (I.number stop) (I.whole 1)).map fun limit =>
            [I.number start, limit, I.number step]).map fun vs => (vs, t) := by
    intro t
    simp only [Expr.evalAll_cons, Expr.evalAll_nil, Expr.eval_add, Expr.eval_int, numberExpr_eval,
      Option.bind_some]
    cases I.add (I.number stop) (I.whole 1) <;> simp
  refine (Simulates.forRange harguments fun values => simulates_counting hbody).congr ?_
  intro s s'
  have hvalues : ((I.add (I.number stop) (I.whole 1)).map fun limit =>
      [I.number start, limit, I.number step]).bind I.range = I.counterValues start stop step := by
    rw [Primitives.counterValues, if_pos hwhole]
    cases I.add (I.number stop) (I.whole 1) <;> rfl
  rw [runs_forLoop_iff, hvalues]

/-- A loop over the numbers of the passes does what any other counting loop does: the counter is
computed anew in each pass. -/
theorem simulates_forNumbered {counter : Variable} {start stop step : Binary64}
    (hwhole : Script.countsWhole start stop step = false) :
    Simulates (Runs (.statement (.forLoop counter start stop step body) : Work I))
      (.suite [.forRange Script.passNumber [.int (Script.passes start stop step)]
        (.assign counter.name (Script.placedExpr start step) :: suite)]) := by
  have harguments : ∀ t : State I, Expr.evalAll [.int (Script.passes start stop step)] t
      = (some [I.whole (Script.passes start stop step)]).map fun vs => (vs, t) := by
    intro t
    simp [Expr.evalAll_cons]
  refine (Simulates.forRange harguments fun numbers => simulates_numbered hbody).congr ?_
  intro s s'
  rw [runs_forLoop_iff, Primitives.counterValues, hwhole]
  constructor
  · rintro ⟨numbers, hnumbers, values, hvalues, hrun⟩
    exact ⟨values, Option.bind_eq_some_iff.2 ⟨numbers, hnumbers, hvalues⟩, hrun⟩
  · rintro ⟨values, hvalues, hrun⟩
    obtain ⟨numbers, hnumbers, hvalues⟩ := Option.bind_eq_some_iff.1 hvalues
    exact ⟨numbers, hnumbers, values, hvalues, hrun⟩

end Loops

/-! ## Chains -/

section Chains

variable {body : Block} {suite chain : List Stmt}
  (hbody : Simulates (Runs (.statements body.statements : Work I)) (.suite suite))
include hbody

/-- A conditional with the rest of the chain behind it does what a branch with
its followers does. -/
theorem simulates_branch {test : Condition} {e : Expr} {others : List (Option Condition × Block)}
    (htest : Tests e (test.eval I))
    (hothers : Simulates (Runs (.branches others : Work I)) (.suite chain)) :
    Simulates (Runs (.branches ((some test, body) :: others) : Work I))
      (.suite [.ifElse e suite chain]) := by
  refine (Simulates.ifElse htest hbody hothers).congr ?_
  intro s s'
  constructor
  · rintro (⟨htrue, hrun⟩ | ⟨hfalse, hrun⟩)
    · exact .branch htrue hrun
    · exact .branchSkip hfalse hrun
  · intro hrun
    cases hrun with
    | branch htrue hrun => exact .inl ⟨htrue, hrun⟩
    | branchSkip hfalse hrun => exact .inr ⟨hfalse, hrun⟩

/-- The branch without a condition is taken whenever it is reached. -/
theorem simulates_otherwise {others : List (Option Condition × Block)} :
    Simulates (Runs (.branches ((none, body) :: others) : Work I)) (.suite suite) := by
  refine hbody.congr ?_
  intro s s'
  constructor
  · intro hrun
    exact .otherwise hrun
  · intro hrun
    cases hrun with
    | otherwise hrun => exact hrun

/-- A conditional with the rest of the chain behind it does what an arm with its followers does. -/
theorem simulates_arm {subject : String} {label : Literal} {e : Expr}
    {others : List (Literal × Block)} (htest : Tests e (label.matches I subject))
    (hothers : Simulates (Runs (.arms subject others : Work I)) (.suite chain)) :
    Simulates (Runs (.arms subject ((label, body) :: others) : Work I))
      (.suite [.ifElse e suite chain]) := by
  refine (Simulates.ifElse htest hbody hothers).congr ?_
  intro s s'
  constructor
  · rintro (⟨htrue, hrun⟩ | ⟨hfalse, hrun⟩)
    · exact .arm htrue hrun
    · exact .armSkip hfalse hrun
  · intro hrun
    cases hrun with
    | arm htrue hrun => exact .inl ⟨htrue, hrun⟩
    | armSkip hfalse hrun => exact .inr ⟨hfalse, hrun⟩

end Chains

end Zed
