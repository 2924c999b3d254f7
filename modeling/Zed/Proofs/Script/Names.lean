import Zed.Proofs.Program.Anatomy
import Zed.Proofs.Python.Names
import Zed.Proofs.Script.Text

/-!
# Names that a script uses

The body of a program uses variables, the number of a pass, and a few functions: `print`, `range`,
`str`, `zedInput` and `zedAssign`, and `round` if it has a loop that counts with fractions. The
number of a pass is assigned wherever it is used. So what is looked for outside of the function is
known (`Refers`), and the name of the function can be compared with it.
-/

set_option autoImplicit false

namespace Zed

open Python Script

/-- The statement is a loop that counts with fractions, so each pass rounds its counter. -/
def Statement.rounds : Statement → Bool
  | .forLoop _ start stop step _ => !countsWhole start stop step
  | _ => false

/-- The name is that of a variable, or one that no function of a program has. -/
def Script.Ordinary (x : String) : Prop :=
  Variable.isName x = true ∨ x ∈ usedNames

/-! ## Expressions -/

theorem Python.names_numberExpr (x : Binary64) : (numberExpr x).names = [] := by
  rw [numberExpr]
  split <;> rfl

/-- The expression for a term uses ordinary names only. -/
theorem Term.names_ordinary {t : Term} (h : t.WellFormed .source) :
    ∀ x ∈ t.toExpr.names, Ordinary x := by
  cases t with
  | var v =>
    intro x hx
    obtain rfl := List.mem_singleton.1 hx
    exact .inl h
  | text body => exact fun _ hx => absurd hx List.not_mem_nil
  | number value =>
    rw [Term.toExpr, names_numberExpr]
    exact fun _ hx => absurd hx List.not_mem_nil

theorem Literal.names_toExpr (label : Literal) : label.toExpr.names = [] := by
  cases label with
  | text body => rfl
  | number value => exact names_numberExpr value

theorem Operand.names_ordinary {o : Operand} (h : o.WellFormed .source) :
    ∀ x ∈ o.toExpr.names, Ordinary x := by
  induction o with
  | term t => exact Term.names_ordinary h
  | condition negated relation left right ihleft ihright =>
    intro x hx
    have hparts : x ∈ left.toExpr.names ++ right.toExpr.names := by
      cases negated <;> exact hx
    rcases List.mem_append.1 hparts with hx | hx
    · exact ihleft h.1 x hx
    · exact ihright h.2 x hx

/-- The expression for a condition uses ordinary names only. -/
theorem Condition.names_ordinary {c : Condition} (h : c.WellFormed .source) :
    ∀ x ∈ c.toExpr.names, Ordinary x :=
  Operand.names_ordinary (o := c.toOperand) h

theorem Term.namesOfAll_ordinary {ts : List Term} (h : ∀ t ∈ ts, t.WellFormed .source) :
    ∀ x ∈ Expr.namesOfAll (ts.map Term.toExpr), Ordinary x := by
  induction ts with
  | nil => exact fun _ hx => absurd hx List.not_mem_nil
  | cons t ts ih =>
    obtain ⟨ht, hts⟩ := List.forall_mem_cons.1 h
    intro x hx
    rcases List.mem_append.1 hx with hx | hx
    · exact Term.names_ordinary ht x hx
    · exact ih hts x hx

theorem Term.toStrCall_ordinary {t : Term} (h : t.WellFormed .source) :
    ∀ x ∈ t.toStrCall.names, Ordinary x := by
  intro x hx
  rcases List.mem_cons.1 hx with rfl | hx
  · exact .inr (by decide)
  · rw [Expr.namesOfAll, Expr.namesOfAll, List.append_nil] at hx
    exact Term.names_ordinary h x hx

/-- The expression for a prompt uses ordinary names only. -/
theorem Term.promptExpr_ordinary {ts : List Term} (h : ∀ t ∈ ts, t.WellFormed .source) :
    ∀ x ∈ (Term.promptExpr ts).names, Ordinary x := by
  -- The terms are joined from the left, so the part that is joined already is generalized.
  have hjoin : ∀ (us : List Term) (joined : Expr), (∀ u ∈ us, u.WellFormed .source) →
      (∀ x ∈ joined.names, Ordinary x) →
      ∀ x ∈ (us.foldl (fun joined t => .binary .add joined t.toStrCall) joined).names,
        Ordinary x := by
    intro us
    induction us with
    | nil => exact fun joined _ hjoined => hjoined
    | cons u us ih =>
      intro joined hus hjoined
      obtain ⟨hu, hus⟩ := List.forall_mem_cons.1 hus
      refine ih _ hus ?_
      intro x hx
      rcases List.mem_append.1 hx with hx | hx
      · exact hjoined x hx
      · exact Term.toStrCall_ordinary hu x hx
  cases ts with
  | nil => exact fun _ hx => absurd hx List.not_mem_nil
  | cons t ts =>
    obtain ⟨ht, hts⟩ := List.forall_mem_cons.1 h
    exact hjoin ts _ hts (Term.toStrCall_ordinary ht)

/-- The expression for a value uses ordinary names only. -/
theorem Value.names_ordinary {v : Value} (h : v.WellFormed .source) :
    ∀ x ∈ v.toExpr.names, Ordinary x := by
  cases v with
  | term t => exact Term.names_ordinary h
  | input prompt =>
    intro x hx
    rcases List.mem_cons.1 hx with rfl | hx
    · exact .inr (by decide)
    · rw [Expr.namesOfAll, Expr.namesOfAll, List.append_nil] at hx
      exact Term.promptExpr_ordinary h x hx

/-! ## Statements -/

/-- What statements use and assign. They use `round` if they round. -/
structure Script.Refers (ss : List Stmt) (rounds : Bool) : Prop where
  names : ∀ x ∈ Stmt.namesOfAll ss, Ordinary x ∨ (x = passNumber ∧ x ∈ Stmt.targetsOfAll ss) ∨
    (x = "round" ∧ rounds = true)
  targets : ∀ x ∈ Stmt.targetsOfAll ss, Variable.isName x = true ∨ x = passNumber
  round : rounds = true → "round" ∈ Stmt.namesOfAll ss

namespace Script.Refers

variable {ss ts bs : List Stmt} {rounds again : Bool}

theorem nil : Refers [] false where
  names _ hx := absurd hx List.not_mem_nil
  targets _ hx := absurd hx List.not_mem_nil
  round := by rintro ⟨⟩

/-- Statements in a row refer to what both parts refer to. -/
theorem append (h : Refers ss rounds) (hts : Refers ts again) :
    Refers (ss ++ ts) (rounds || again) where
  names := by
    intro x hx
    rw [Stmt.targetsOfAll_append]
    rw [Stmt.namesOfAll_append] at hx
    rcases List.mem_append.1 hx with hx | hx
    · rcases h.names x hx with hx | ⟨hpass, hx⟩ | ⟨hround, htrue⟩
      · exact .inl hx
      · exact .inr (.inl ⟨hpass, List.mem_append_left _ hx⟩)
      · exact .inr (.inr ⟨hround, by rw [htrue, Bool.true_or]⟩)
    · rcases hts.names x hx with hx | ⟨hpass, hx⟩ | ⟨hround, htrue⟩
      · exact .inl hx
      · exact .inr (.inl ⟨hpass, List.mem_append_right _ hx⟩)
      · exact .inr (.inr ⟨hround, by rw [htrue, Bool.or_true]⟩)
  targets := by
    intro x hx
    rw [Stmt.targetsOfAll_append] at hx
    exact (List.mem_append.1 hx).elim (h.targets x) (hts.targets x)
  round := by
    intro hrounds
    rw [Stmt.namesOfAll_append, List.mem_append]
    exact ((Bool.or_eq_true _ _).mp hrounds).imp h.round hts.round

/-- A statement around others, with names and targets of its own. -/
theorem around {s : Stmt} {own bound : List String} (h : Refers bs rounds)
    (hnames : s.names = own ++ Stmt.namesOfAll bs)
    (htargets : s.targets = bound ++ Stmt.targetsOfAll bs) (hown : ∀ x ∈ own, Ordinary x)
    (hbound : ∀ x ∈ bound, Variable.isName x = true ∨ x = passNumber) :
    Refers [s] rounds where
  names := by
    intro x hx
    rw [Stmt.namesOfAll, Stmt.namesOfAll, List.append_nil, hnames] at hx
    rw [Stmt.targetsOfAll, Stmt.targetsOfAll, List.append_nil, htargets]
    rcases List.mem_append.1 hx with hx | hx
    · exact .inl (hown x hx)
    · exact (h.names x hx).imp_right
        (.imp_left fun hpass => ⟨hpass.1, List.mem_append_right _ hpass.2⟩)
  targets := by
    intro x hx
    rw [Stmt.targetsOfAll, Stmt.targetsOfAll, List.append_nil, htargets] at hx
    exact (List.mem_append.1 hx).elim (hbound x) (h.targets x)
  round := by
    intro hrounds
    rw [Stmt.namesOfAll, Stmt.namesOfAll, List.append_nil, hnames]
    exact List.mem_append_right _ (h.round hrounds)

/-- An assignment to a variable, of an expression in ordinary names. -/
theorem assign {x : String} {e : Expr} (hx : Variable.isName x = true)
    (he : ∀ y ∈ e.names, Ordinary y) :
    Refers [.assign x e] false :=
  nil.around (List.append_nil _).symm rfl he (List.forall_mem_singleton.2 (.inl hx))

theorem pass : Refers [.pass] false :=
  nil.around (List.append_nil _).symm rfl (List.forall_mem_nil _) (List.forall_mem_nil _)

/-- A conditional refers to what its test, its suite and the rest of its chain refer to. -/
theorem ifElse {e : Expr} (he : ∀ y ∈ e.names, Ordinary y) (hss : Refers ss rounds)
    (hts : Refers ts again) :
    Refers [.ifElse e ss ts] (rounds || again) :=
  (hss.append hts).around (by rw [Stmt.names, Stmt.namesOfAll_append])
    (by rw [Stmt.targets, Stmt.targetsOfAll_append, List.nil_append]) he (List.forall_mem_nil _)

/-- A loop in whose passes the counter is rounded. -/
theorem placed {counter : String} (hcounter : Variable.isName counter = true) (count : Nat)
    (start step : Binary64) (h : Refers ss rounds) :
    Refers [.forRange passNumber [.int count] (.assign counter (placedExpr start step) :: ss)]
      true := by
  have hplaced : (placedExpr start step).names = ["round", passNumber] := by
    simp [placedExpr, Expr.names, Expr.namesOfAll, names_numberExpr]
  have hnames : Stmt.namesOfAll
      [.forRange passNumber [.int count] (.assign counter (placedExpr start step) :: ss)]
      = "range" :: "round" :: passNumber :: Stmt.namesOfAll ss := by
    simp [Stmt.namesOfAll, Stmt.names, Expr.names, Expr.namesOfAll, hplaced]
  have htargets : Stmt.targetsOfAll
      [.forRange passNumber [.int count] (.assign counter (placedExpr start step) :: ss)]
      = passNumber :: counter :: Stmt.targetsOfAll ss := by
    simp [Stmt.targetsOfAll, Stmt.targets]
  constructor
  · intro x hx
    rw [hnames, List.mem_cons, List.mem_cons, List.mem_cons] at hx
    rw [htargets]
    -- The number of the pass is used here, and it is a target of the loop itself.
    rcases hx with rfl | rfl | rfl | hx
    · exact .inl (.inr (by decide))
    · exact .inr (.inr ⟨rfl, rfl⟩)
    · exact .inr (.inl ⟨rfl, List.mem_cons_self ..⟩)
    · rcases h.names x hx with hx | ⟨rfl, _⟩ | ⟨rfl, _⟩
      · exact .inl hx
      · exact .inr (.inl ⟨rfl, List.mem_cons_self ..⟩)
      · exact .inr (.inr ⟨rfl, rfl⟩)
  · intro x hx
    rw [htargets, List.mem_cons, List.mem_cons] at hx
    rcases hx with rfl | rfl | hx
    · exact .inr rfl
    · exact .inl hcounter
    · exact h.targets x hx
  · intro _
    rw [hnames]
    simp

end Script.Refers

mutual

/-- The translation of a statement refers to variables and to what the script defines, and to
`round` exactly if some loop in it counts with fractions. -/
theorem Statement.refers : ∀ s : Statement, s.WellFormed .source →
    Refers s.toPython (s.rounds || s.inner.any Statement.rounds)
  | .assign target value none, h => by
    obtain ⟨htarget, hvalue⟩ := Statement.wellFormed_assign.1 h
    exact .assign htarget (Value.names_ordinary hvalue)
  | .assign target value (some operator), h => by
    obtain ⟨htarget, hvalue⟩ := Statement.wellFormed_assign.1 h
    refine .assign htarget ?_
    intro x hx
    simp only [Expr.names, Expr.namesOfAll, List.append_nil, List.mem_cons, List.mem_append,
      List.not_mem_nil, or_false] at hx
    rcases hx with rfl | rfl | hx
    · exact .inr (by decide)
    · exact .inl htarget
    · exact Value.names_ordinary hvalue x hx
  | .output terms, h => by
    have hterms := Term.namesOfAll_ordinary (Statement.wellFormed_output.1 h)
    exact Refers.nil.around (List.append_nil _).symm rfl
      (List.forall_mem_cons.2 ⟨.inr (by decide), hterms⟩) (List.forall_mem_nil _)
  | .whileLoop test body, h => by
    obtain ⟨htest, hbody⟩ := Statement.wellFormed_whileLoop.1 h
    exact (Block.suite_refers body hbody).around rfl rfl (Condition.names_ordinary htest)
      (List.forall_mem_nil _)
  | .untilLoop body test, h => by
    obtain ⟨hbody, htest⟩ := Statement.wellFormed_untilLoop.1 h
    -- What leaves the loop uses only what its test does.
    have hleave : Refers [.ifElse test.toExpr [.leave] []] false :=
      Refers.nil.around rfl rfl (Condition.names_ordinary htest) (List.forall_mem_nil _)
    have hloop := (Block.suite_refers body hbody).append hleave
    rw [Bool.or_false] at hloop
    exact hloop.around rfl rfl (List.forall_mem_nil _) (List.forall_mem_nil _)
  | .forLoop counter start stop step body, h => by
    obtain ⟨hcounter, _, _, _, _, hbody⟩ := Statement.wellFormed_forLoop.1 h
    rw [Statement.toPython, Statement.rounds]
    split
    · next hwhole =>
      have hbounds : Expr.namesOfAll
          [numberExpr start, .binary .add (numberExpr stop) (.int 1), numberExpr step] = [] := by
        simp [Expr.names, Expr.namesOfAll, names_numberExpr]
      rw [hwhole]
      refine (Block.suite_refers body hbody).around rfl rfl ?_
        (List.forall_mem_singleton.2 (.inl hcounter))
      rw [hbounds]
      exact List.forall_mem_singleton.2 (.inr (by decide))
    · next hfraction =>
      rw [Bool.eq_false_of_not_eq_true hfraction]
      exact .placed hcounter _ start step (Block.refers body hbody)
  | .choice [], h => absurd h Statement.not_wellFormed_choice_nil
  | .choice ((none, _) :: _), h => absurd h Statement.not_wellFormed_choice_none
  | .choice ((some test, body) :: others), h => by
    obtain ⟨htest, hbody, hothers⟩ := Statement.wellFormed_choice.1 h
    have hchain := Refers.ifElse (Condition.names_ordinary htest) (Block.suite_refers body hbody)
      (Statement.refersOfBranches others hothers)
    rw [← List.any_append] at hchain
    exact hchain
  | .switch subject [], _ => .pass
  | .switch subject ((label, body) :: others), h => by
    obtain ⟨hsubject, harms⟩ := Statement.wellFormed_switch.1 h
    exact Statement.refersOfArms hsubject ((label, body) :: others) harms

/-- The translations of statements refer to what each of them refers to. -/
theorem Statement.refersOfAll : ∀ ss : List Statement, Statement.allWellFormed .source ss →
    Refers (Statement.allToPython ss) ((Statement.innerOfAll ss).any Statement.rounds)
  | [], _ => .nil
  | s :: ss, h => by
    obtain ⟨hs, hss⟩ := Statement.allWellFormed_cons.1 h
    have hboth := (Statement.refers s hs).append (Statement.refersOfAll ss hss)
    rw [Statement.innerOfAll, List.cons_append, List.any_cons, List.any_append, ← Bool.or_assoc]
    exact hboth

/-- The translation of a block refers to what its statements refer to. -/
theorem Block.refers :
    ∀ b : Block, b.WellFormed .source → Refers b.toPython (b.inner.any Statement.rounds)
  | .mk ss _, h => Statement.refersOfAll ss (Block.wellFormed_mk.1 h)
theorem Block.suite_refers : ∀ b : Block, b.WellFormed .source →
    Refers b.toSuite (b.inner.any Statement.rounds)
  | .mk [] _, _ => .pass
  | .mk (s :: ss) _, h => Statement.refersOfAll (s :: ss) (Block.wellFormed_mk.1 h)

/-- The translations of branches refer to what their bodies refer to. -/
theorem Statement.refersOfBranches : ∀ bs : List (Option Condition × Block),
    Statement.wellFormedBranches .source bs →
    Refers (Statement.branchesToPython bs) ((Statement.innerOfBranches bs).any Statement.rounds)
  | [], _ => .nil
  | (some test, body) :: others, h => by
    obtain ⟨htest, hbody, hothers⟩ := Statement.wellFormedBranches_some.1 h
    rw [Statement.innerOfBranches, List.any_append]
    exact .ifElse (Condition.names_ordinary htest) (Block.suite_refers body hbody)
      (Statement.refersOfBranches others hothers)
  | (none, body) :: others, h => by
    obtain ⟨hbody, rfl⟩ := Statement.wellFormedBranches_none.1 h
    rw [Statement.innerOfBranches, Statement.innerOfBranches, List.append_nil]
    exact Block.suite_refers body hbody
theorem Statement.refersOfArms {subject : String} (hsubject : Variable.isName subject = true) :
    ∀ arms : List (Literal × Block), Statement.wellFormedArms .source arms →
    Refers (Statement.armsToPython subject arms) ((Statement.innerOfArms arms).any Statement.rounds)
  | [], _ => .nil
  | (label, body) :: others, h => by
    obtain ⟨_, hbody, hothers⟩ := Statement.wellFormedArms_cons.1 h
    rw [Statement.innerOfArms, List.any_append]
    refine .ifElse ?_ (Block.suite_refers body hbody)
      (Statement.refersOfArms hsubject others hothers)
    intro x hx
    rw [Expr.names, Expr.names, Literal.names_toExpr, List.append_nil, List.mem_singleton] at hx
    exact .inl (hx ▸ hsubject)
end

/-! ## Names from outside -/

theorem Script.not_ordinary_round : ¬ Ordinary "round" := by
  rintro (hname | hused)
  · exact absurd hname (by decide)
  · exact absurd hused (by decide)

namespace Script.Refers

variable {ss : List Stmt} {rounds : Bool}

/-- The number of a pass is assigned where it is used, so it is not looked for outside. -/
theorem ordinary_or_round (h : Refers ss rounds) : ∀ x ∈ globals ss, Ordinary x ∨ x = "round" := by
  intro x hx
  obtain ⟨hname, htarget⟩ := mem_globals.1 hx
  rcases h.names x hname with hx | ⟨_, hx⟩ | ⟨hx, _⟩
  · exact .inl hx
  · exact absurd hx htarget
  · exact .inr hx

/-- The name `round` is global exactly if a loop counts with fractions: no variable is named so. -/
theorem round_mem_globals (h : Refers ss rounds) : "round" ∈ globals ss ↔ rounds = true := by
  rw [mem_globals]
  constructor
  · rintro ⟨hname, _⟩
    rcases h.names _ hname with hx | ⟨hpass, _⟩ | ⟨_, hrounds⟩
    · exact absurd hx not_ordinary_round
    · exact absurd hpass (by decide)
    · exact hrounds
  · intro hrounds
    refine ⟨h.round hrounds, ?_⟩
    intro htarget
    rcases h.targets _ htarget with hname | hpass
    · exact absurd hname (by decide)
    · exact absurd hpass (by decide)

end Script.Refers

/-- The parts before the function of a program define or use only names that it leaves alone. -/
theorem Script.mem_usedNames_of_preamble :
    ∀ x ∈ (layout ((preamble.map Line.row).filter fun r => !r.2.isEmpty)).flatMap Tree.globals,
      x ∈ usedNames := by
  decide +kernel

/-! ## The name of the function -/

/-- A name that is taken is free with an underscore behind it. -/
theorem Script.free_of_taken : ∀ x ∈ reservedWords ++ usedNames,
    x ++ "_" ∉ reservedWords ++ usedNames ∧ Variable.isName (x ++ "_") = false ∧
      x ++ "_" ≠ "round" ∧ x ≠ "round" := by
  decide +kernel

/-- The name of the function is neither reserved nor used by the script, and no variable has it. It
is `round` only if the program has this name. -/
theorem Script.functionName_free {name : String} (h : Variable.isName name = false) :
    functionName name ∉ reservedWords ++ usedNames ∧ Variable.isName (functionName name) = false ∧
      (functionName name = "round" ↔ name = "round") := by
  rw [functionName]
  split
  · -- The name is taken, so it is one of finitely many.
    next htaken =>
    have hmem : name ∈ reservedWords ++ usedNames := by
      simpa using htaken
    obtain ⟨hfree, hname, hround, hne⟩ := free_of_taken name hmem
    exact ⟨hfree, hname, iff_of_false hround hne⟩
  · next hfree =>
    exact ⟨by simpa using hfree, h, Iff.rfl⟩

end Zed
