import Zed.Proofs.Scope.Names
import Zed.Proofs.Scope.Visibility
import Zed.Proofs.Scope.Walk

/-!
# Which reads are reported

Every read of a variable in a program stands at a place (`Program.sites`). A walk keeps a
stack of frames instead of places, and Booleans for the reads of an assignment. What it
reports in the end are the reads of names that are not resolved where they stand, each of them
once and in order (`Program.undefinedReads_eq_unresolved`).

The walk and the rules of scope are compared one statement at a time: if a scope defines what is
known at a place, then behind a statement it defines what is known there (`Scope.statement_walked`).
-/

set_option autoImplicit false

namespace Zed

/-! ## The reads of a program -/

/-- A read of a variable at a place of a program. -/
structure Site where
  place : Place
  occurrence : Variable

/-- Reads at one place, in order. -/
def Place.sites (place : Place) (vs : List Variable) : List Site :=
  vs.map (Site.mk place)

mutual
/-- The reads in a statement that stands at the place, in the order in which they are written. -/
def Statement.sites (place : Place) : Statement → List Site
  | .assign target value operator => place.sites (Statement.assignReads target value operator)
  | .output terms => place.sites (Term.variables terms)
  | .whileLoop test body =>
    place.sites (Term.variables test.leaves)
      ++ Block.sites (place.inside (.whileLoop test body)) body
  -- The test stands behind the last statement of the body.
  | .untilLoop body test =>
    Block.sites (place.inside (.untilLoop body test)) body ++
      ((place.inside (.untilLoop body test)).past body.statements).sites
        (Term.variables test.leaves)
  | .forLoop counter start stop step body =>
    Block.sites (place.inside (.forLoop counter start stop step body)) body
  | .choice branches => Statement.sitesOfBranches place (place.inside (.choice branches)) branches
  | .switch subject arms =>
    place.sites [subject] ++ Statement.sitesOfArms (place.inside (.switch subject arms)) arms
/-- The reads in statements, the first of which stands at the place. -/
def Statement.sitesOfAll (place : Place) : List Statement → List Site
  | [] => []
  | s :: ss => Statement.sites place s ++ Statement.sitesOfAll (place.past [s]) ss
def Block.sites (place : Place) : Block → List Site
  | .mk ss _ => Statement.sitesOfAll place ss
/-- The reads in branches: conditions are read at the place of the choice, blocks
begin at `inner`. -/
def Statement.sitesOfBranches (place inner : Place) : List (Option Condition × Block) → List Site
  | [] => []
  | (some test, body) :: others =>
    place.sites (Term.variables test.leaves) ++ Block.sites inner body ++
      Statement.sitesOfBranches place inner others
  | (none, body) :: others => Block.sites inner body ++ Statement.sitesOfBranches place inner others
/-- The reads in arms, whose blocks begin at `inner`. -/
def Statement.sitesOfArms (inner : Place) : List (Literal × Block) → List Site
  | [] => []
  | (_, body) :: others => Block.sites inner body ++ Statement.sitesOfArms inner others
end

/-- The reads of variables in a program, in the order in which they are written. -/
def Program.sites (p : Program) : List Site :=
  p.body.sites .start

section Constructors

variable {place inner : Place} {target subject counter : Variable} {value : Value}
  {operator : Option Arithmetic} {terms : List Term} {test : Condition} {body : Block}
  {start stop step : Binary64} {label : Literal} {s : Statement} {ss : List Statement}
  {ds : List Diagnostic} {branches : List (Option Condition × Block)}
  {arms : List (Literal × Block)}

theorem Statement.sites_assign : (Statement.assign target value operator).sites place
    = place.sites (Statement.assignReads target value operator) := rfl

theorem Statement.sites_output :
    (Statement.output terms).sites place = place.sites (Term.variables terms) := rfl

/-- The condition of a loop is read outside of it, the body inside. -/
theorem Statement.sites_whileLoop : (Statement.whileLoop test body).sites place
    = place.sites (Term.variables test.leaves)
      ++ body.sites (place.inside (.whileLoop test body)) := rfl

/-- The condition behind a body is read inside the loop, after the statements of the body. -/
theorem Statement.sites_untilLoop : (Statement.untilLoop body test).sites place
    = body.sites (place.inside (.untilLoop body test)) ++
      ((place.inside (.untilLoop body test)).past body.statements).sites
        (Term.variables test.leaves) := rfl

theorem Statement.sites_forLoop : (Statement.forLoop counter start stop step body).sites place
    = body.sites (place.inside (.forLoop counter start stop step body)) := rfl

/-- The conditions of a choice are read outside of it, its bodies inside. -/
theorem Statement.sites_choice : (Statement.choice branches).sites place
    = Statement.sitesOfBranches place (place.inside (.choice branches)) branches := rfl

/-- The subject of a switch is read outside of it, its bodies inside. -/
theorem Statement.sites_switch : (Statement.switch subject arms).sites place
    = place.sites [subject] ++ Statement.sitesOfArms (place.inside (.switch subject arms)) arms :=
  rfl

/-- A statement sees the statements in front of it. -/
theorem Statement.sitesOfAll_cons : Statement.sitesOfAll place (s :: ss)
    = s.sites place ++ Statement.sitesOfAll (place.past [s]) ss := rfl

theorem Block.sites_mk : (Block.mk ss ds).sites place = Statement.sitesOfAll place ss := rfl

theorem Statement.sitesOfBranches_some :
    Statement.sitesOfBranches place inner ((some test, body) :: branches)
    = place.sites (Term.variables test.leaves) ++ body.sites inner ++
      Statement.sitesOfBranches place inner branches := rfl

theorem Statement.sitesOfBranches_none :
    Statement.sitesOfBranches place inner ((none, body) :: branches)
    = body.sites inner ++ Statement.sitesOfBranches place inner branches := rfl

theorem Statement.sitesOfArms_cons : Statement.sitesOfArms inner ((label, body) :: arms)
    = body.sites inner ++ Statement.sitesOfArms inner arms := rfl

end Constructors

/-- The reports of those reads whose names are not known where they stand. -/
def Site.unresolved (sites : List Site) : List Diagnostic :=
  (sites.filter fun site => !Statement.known site.place.visible site.occurrence.name).map
    fun site => site.occurrence.report

/-- The unresolved reads of two lists of sites are those of the first one and those of
the second one. -/
theorem Site.unresolved_append (xs ys : List Site) :
    Site.unresolved (xs ++ ys) = Site.unresolved xs ++ Site.unresolved ys := by
  simp [Site.unresolved]

namespace Scope

/-! ## Reads -/

/-- The reports of those of the variables that no open frame defines. -/
def missing (scope : Scope) (vs : List Variable) : List Diagnostic :=
  (vs.filter fun v => !scope.defines v.name).map Variable.report

/-- The scope after reads of variables. -/
def afterReads (scope : Scope) (vs : List Variable) : Scope :=
  { scope with reports := scope.reports ++ (scope.missing vs).toArray }

variable {scope after last : Scope} {vs ws : List Variable}

theorem afterReads_nil : scope.afterReads [] = scope := by
  simp [afterReads, missing]

/-- Reads in a row are one list of reads. -/
theorem afterReads_append : (scope.afterReads vs).afterReads ws = scope.afterReads (vs ++ ws) := by
  simp [afterReads, missing, defines, Array.append_assoc]

/-- All of the variables are defined. -/
def definesAll (scope : Scope) (vs : List Variable) : Bool :=
  vs.all fun v => scope.defines v.name

/-- All variables of two lists are defined if those of both are. -/
theorem definesAll_append :
    scope.definesAll (vs ++ ws) = (scope.definesAll vs && scope.definesAll ws) :=
  List.all_append

/-- Reads do not change what is defined. -/
theorem definesAll_afterReads : (scope.afterReads vs).definesAll ws = scope.definesAll ws := rfl

/-- Reading a variable says whether it is defined, and reports it if it is not. -/
theorem readVar_eq (v : Variable) (scope : Scope) :
    scope.readVar v = (scope.definesAll [v], scope.afterReads [v]) := by
  cases h : scope.defines v.name with
  | true => simp [readVar, definesAll, afterReads, missing, h]
  | false => simp [readVar, definesAll, afterReads, missing, h, Variable.report]

/-- Reading a term is reading its variables. -/
theorem readTerm_eq (t : Term) (scope : Scope) :
    scope.readTerm t = (scope.definesAll (Term.variables [t]),
      scope.afterReads (Term.variables [t])) := by
  cases t with
  | var v => exact readVar_eq v scope
  | text body => exact Prod.ext rfl afterReads_nil.symm
  | number value => exact Prod.ext rfl afterReads_nil.symm

/-- Reading a list of terms is reading all their variables from left to right: a term that fails
does not stop it. -/
theorem readTerms_eq (ts : List Term) (scope : Scope) :
    readTerms ts scope = (scope.definesAll (Term.variables ts),
      scope.afterReads (Term.variables ts)) := by
  induction ts generalizing scope with
  | nil => exact Prod.ext rfl afterReads_nil.symm
  | cons t ts ih =>
    have hcons : Term.variables (t :: ts) = Term.variables [t] ++ Term.variables ts :=
      List.filterMap_append (l := [t])
    -- A read leaves the frames as they are, so the later terms are looked up in the same ones.
    rw [readTerms, readTerm_eq, ih, definesAll_afterReads, afterReads_append, hcons,
      definesAll_append]

/-- Reading a value is reading its variables. -/
theorem readValue_eq (value : Value) (scope : Scope) :
    scope.readValue value
      = (scope.definesAll (Term.variables value.leaves),
        scope.afterReads (Term.variables value.leaves)) := by
  cases value with
  | term t => exact readTerm_eq t scope
  | input prompt => exact readTerms_eq prompt scope

/-- Reading an operand is reading its variables. -/
theorem readOperand_eq (x : Operand) (scope : Scope) :
    readOperand x scope = scope.afterReads (Term.variables x.leaves) := by
  induction x generalizing scope with
  | term t => exact congrArg Prod.snd (readTerm_eq t scope)
  | condition negated relation left right ihleft ihright =>
    rw [readOperand, ihleft, ihright, afterReads_append, Operand.leaves, Term.variables,
      Term.variables, Term.variables, List.filterMap_append]

/-- Reading a condition is reading its variables. -/
theorem readCondition_eq (c : Condition) (scope : Scope) :
    scope.readCondition c = scope.afterReads (Term.variables c.leaves) :=
  readOperand_eq (.condition c.negated c.relation c.left c.right) scope

/-- An assignment reads its variables and defines its target, unless one of them was undefined. -/
theorem assign_eq (target : Variable) (value : Value) (operator : Option Arithmetic)
    (scope : Scope) :
    scope.assign target value operator
      = if scope.definesAll (Statement.assignReads target value operator) then
          (scope.afterReads (Statement.assignReads target value operator)).define target.name
        else scope.afterReads (Statement.assignReads target value operator) := by
  -- The old value of the target is read only if there is an operator to apply to it.
  have hold : scope.readTarget target operator
      = (scope.definesAll (if operator.isSome then [target] else []),
          scope.afterReads (if operator.isSome then [target] else [])) := by
    cases operator with
    | none => exact Prod.ext rfl afterReads_nil.symm
    | some operator => exact readVar_eq target scope
  rw [Scope.assign, hold, readValue_eq, definesAll_afterReads, afterReads_append,
    Statement.assignReads, definesAll_append]

/-! ## What a scope knows -/

/-- The scope defines the names that the statements make known, and it has a frame for more. -/
structure Knows (scope : Scope) (ss : List Statement) : Prop where
  frames_ne_nil : scope.frames ≠ []
  defines_eq : scope.defines = Statement.known ss

variable {ss ts : List Statement} {s : Statement}

/-- What a scope knows depends on its frames only. -/
theorem Knows.of_frames_eq (h : scope.Knows ss) (hframes : after.frames = scope.frames) :
    after.Knows ss := by
  refine ⟨hframes ▸ h.frames_ne_nil, ?_⟩
  rw [← h.defines_eq]
  funext name
  rw [defines, hframes, defines]

/-- A frame that was just opened hides nothing. -/
theorem Knows.enter (h : scope.Knows ss) : scope.enter.Knows ss := by
  refine ⟨List.cons_ne_nil _ _, ?_⟩
  rw [← h.defines_eq]
  rfl

/-- Besides the name that was just defined, a scope defines what it defined before. -/
theorem defines_define (h : scope.frames ≠ []) (name other : String) :
    (scope.define name).defines other = (scope.defines other || name == other) := by
  obtain ⟨top, below, hframes⟩ := List.exists_cons_of_ne_nil h
  rw [Bool.eq_iff_iff, Bool.or_eq_true, beq_iff_eq]
  simp only [defines, define, hframes, List.modifyHead_cons, List.any_cons, Bool.or_eq_true,
    List.contains_iff_mem, List.mem_insert_iff]
  rw [or_comm (b := name = other), eq_comm, or_assoc]

/-- A scope that has taken up the definition of a statement knows this statement too. -/
theorem Knows.define (h : scope.Knows ss) {v : Variable} {reads : List Variable}
    (hs : s.definition? = some (v, reads)) (hreads : scope.definesAll reads = true) :
    (scope.define v.name).Knows (ss ++ [s]) := by
  constructor
  · obtain ⟨top, below, hframes⟩ := List.exists_cons_of_ne_nil h.frames_ne_nil
    simp [Scope.define, hframes]
  · funext name
    rw [definesAll, h.defines_eq] at hreads
    rw [defines_define h.frames_ne_nil, h.defines_eq, Statement.known_concat, Statement.extend, hs]
    simp only [Option.any_some, hreads, Bool.and_true]

/-- A statement whose definition fails leaves the names as they are. -/
theorem Knows.concat (h : scope.Knows ss)
    (hs : ∀ v reads, s.definition? = some (v, reads) → scope.definesAll reads = false) :
    scope.Knows (ss ++ [s]) := by
  refine ⟨h.frames_ne_nil, ?_⟩
  funext name
  rw [h.defines_eq, Statement.known_concat, Statement.extend]
  cases hd : s.definition? with
  | none => simp
  | some d =>
    have hfails := hs d.1 d.2 hd
    rw [definesAll, h.defines_eq] at hfails
    simp [hfails]

/-! ## The walk and the sites -/

/-- From the first scope the second is reached by a walk over the reads, of which the unresolved are
reported. It then knows what the statements make known. -/
structure Walked (scope after : Scope) (sites : List Site) (ss : List Statement) : Prop where
  reports : after.reports.toList = scope.reports.toList ++ Site.unresolved sites
  knows : after.Knows ss

variable {sites more : List Site}

/-- A walk that meets no site leaves the scope as it is. -/
theorem Walked.refl (h : scope.Knows ss) : Walked scope scope [] ss :=
  ⟨(List.append_nil _).symm, h⟩

/-- Two walks in a row meet the sites of both. -/
theorem Walked.trans (h : Walked scope after sites ss) (h' : Walked after last more ts) :
    Walked scope last (sites ++ more) ts := by
  refine ⟨?_, h'.knows⟩
  rw [h'.reports, h.reports, Site.unresolved_append, List.append_assoc]

/-- Reads at a place change nothing but the reports. -/
theorem Walked.reads {place : Place} (h : scope.Knows place.visible) (vs : List Variable) :
    Walked scope (scope.afterReads vs) (place.sites vs) place.visible := by
  refine ⟨?_, h.of_frames_eq rfl⟩
  rw [afterReads, Array.toList_append, missing, Site.unresolved, Place.sites, List.filter_map,
    List.map_map, h.defines_eq]
  rfl

/-- Walking over a condition meets its variables. -/
theorem readCondition_walked {place : Place} (h : scope.Knows place.visible) (c : Condition) :
    Walked scope (scope.readCondition c) (place.sites (Term.variables c.leaves)) place.visible := by
  rw [readCondition_eq]
  exact Walked.reads h (Term.variables c.leaves)

/-- A walk in a frame of its own leaves the names as they were. -/
theorem Walked.leave (h : scope.Knows ss) (hwalked : Walked scope.enter after sites ts)
    (hextends : Extends scope.enter after) : Walked scope after.leave sites ss :=
  ⟨hwalked.reports, h.of_frames_eq (reports_leave_of_enter hextends).frames⟩

/-- The walk goes on with a statement that defines nothing behind it. -/
theorem Walked.concat (h : Walked scope after sites ss) (hs : s.definition? = none) :
    Walked scope after sites (ss ++ [s]) :=
  ⟨h.reports, h.knows.concat fun v reads hsome => by rw [hs] at hsome; cases hsome⟩

/-- Walking over an assignment meets the variables it reads, and lets what follows see it. -/
theorem assign_walked {place : Place} (h : scope.Knows place.visible) (target : Variable)
    (value : Value) (operator : Option Arithmetic) :
    Walked scope (scope.assign target value operator)
      (place.sites (Statement.assignReads target value operator))
      (place.visible ++ [.assign target value operator]) := by
  have hreads := Walked.reads h (Statement.assignReads target value operator)
  rw [assign_eq]
  split
  · next hall => exact ⟨hreads.reports, hreads.knows.define rfl hall⟩
  · next hsome =>
    refine ⟨hreads.reports, hreads.knows.concat ?_⟩
    rintro v reads ⟨⟩
    exact Bool.eq_false_iff.2 hsome

mutual

/-- Walking over a statement meets its sites, and lets what follows see it. -/
theorem statement_walked :
    ∀ (s : Statement) (scope : Scope) (place : Place), scope.Knows place.visible →
    Walked scope (statement s scope) (s.sites place) (place.visible ++ [s])
  | .assign target value operator, scope, place, h => by
    rw [statement, Statement.sites_assign]
    exact assign_walked h target value operator
  | .output terms, scope, place, h => by
    rw [statement, Statement.sites_output, readTerms_eq]
    exact (Walked.reads h _).concat rfl
  | .whileLoop test body, scope, place, h => by
    rw [statement, Statement.sites_whileLoop]
    have htest := readCondition_walked h test
    have hvisible : (place.inside (.whileLoop test body)).visible = place.visible :=
      place.visible_inside_of_counting_eq_nil rfl
    have hbody := block_walked body _ (place.inside (.whileLoop test body)) (hvisible ▸ htest.knows)
    rw [hvisible] at hbody
    exact (htest.trans hbody).concat rfl
  | .untilLoop (.mk body ds) test, scope, place, h => by
    rw [statement, Statement.sites_untilLoop]
    have hvisible : (place.inside (.untilLoop (.mk body ds) test)).visible = place.visible :=
      place.visible_inside_of_counting_eq_nil rfl
    -- The test is read while the frame of the body is still open.
    have hbody := statements_walked body scope.enter (place.inside (.untilLoop (.mk body ds) test))
      (hvisible ▸ h.enter)
    rw [← Place.visible_past] at hbody
    have htest := readCondition_walked hbody.knows test
    have hextends := (statements_extends body scope.enter).readCondition test
    exact (Walked.leave h (hbody.trans htest) hextends).concat rfl
  | .forLoop counter start stop step body, scope, place, h => by
    rw [statement, Statement.sites_forLoop]
    -- The counter is defined in the frame around the loop, so it is known in the body and
    -- behind the loop.
    have hcounter : (scope.define counter.name).Knows
        (place.inside (.forLoop counter start stop step body)).visible := by
      rw [Place.visible_inside]
      exact h.define (s := .forLoop counter start stop step body) rfl rfl
    have hbody := block_walked body _ _ hcounter
    rw [Place.visible_inside] at hbody
    exact ⟨hbody.reports, hbody.knows⟩
  | .choice branches, scope, place, h => by
    rw [statement, Statement.sites_choice]
    have hvisible : (place.inside (.choice branches)).visible = place.visible :=
      place.visible_inside_of_counting_eq_nil rfl
    -- Conditions are read in front of the choice and blocks begin inside it; the same is
    -- visible at both.
    exact (choice_walked branches scope place _ hvisible h).concat rfl
  | .switch subject arms, scope, place, h => by
    rw [statement, Statement.sites_switch, readVar_eq]
    have hvisible : (place.inside (.switch subject arms)).visible = place.visible :=
      place.visible_inside_of_counting_eq_nil rfl
    have hsubject := Walked.reads h [subject]
    have harms :=
      switch_walked arms _ (place.inside (.switch subject arms)) (hvisible ▸ hsubject.knows)
    rw [hvisible] at harms
    exact (hsubject.trans harms).concat rfl

/-- Walking over a list of statements meets their sites, and lets what follows see all of them. -/
theorem statements_walked : ∀ (ss : List Statement) (scope : Scope) (place : Place),
    scope.Knows place.visible →
    Walked scope (statements ss scope) (Statement.sitesOfAll place ss) (place.visible ++ ss)
  | [], scope, place, h => by
    rw [statements, List.append_nil]
    exact Walked.refl h
  | s :: ss, scope, place, h => by
    rw [statements, Statement.sitesOfAll_cons]
    have hfirst := statement_walked s scope place h
    rw [← Place.visible_past] at hfirst
    have hothers := statements_walked ss _ (place.past [s]) hfirst.knows
    rw [Place.visible_past, List.append_assoc] at hothers
    exact hfirst.trans hothers

/-- Walking over a block meets its sites, and hides its statements from what follows. -/
theorem block_walked : ∀ (b : Block) (scope : Scope) (place : Place), scope.Knows place.visible →
    Walked scope (block b scope) (b.sites place) place.visible
  | .mk ss ds, scope, place, h => by
    rw [block, Block.sites_mk]
    exact Walked.leave h (statements_walked ss scope.enter place h.enter)
      (statements_extends ss scope.enter)

/-- Walking over the branches of a choice meets their sites. No branch sees the statements
of another one. -/
theorem choice_walked :
    ∀ (branches : List (Option Condition × Block)) (scope : Scope) (place inner : Place),
    inner.visible = place.visible → scope.Knows place.visible →
    Walked scope (choice branches scope) (Statement.sitesOfBranches place inner branches)
      place.visible
  | [], scope, place, inner, _, h => by
    rw [choice]
    exact Walked.refl h
  | (some test, body) :: rest, scope, place, inner, hinner, h => by
    rw [choice, Statement.sitesOfBranches_some]
    have htest := readCondition_walked h test
    have hbody := block_walked body _ inner (hinner ▸ htest.knows)
    rw [hinner] at hbody
    exact (htest.trans hbody).trans (choice_walked rest _ place inner hinner hbody.knows)
  | (none, body) :: rest, scope, place, inner, hinner, h => by
    rw [choice, Statement.sitesOfBranches_none]
    have hbody := block_walked body scope inner (hinner ▸ h)
    rw [hinner] at hbody
    exact hbody.trans (choice_walked rest _ place inner hinner hbody.knows)

/-- Walking over the arms of a switch meets their sites. No arm sees the statements
of another one. -/
theorem switch_walked : ∀ (arms : List (Literal × Block)) (scope : Scope) (inner : Place),
    scope.Knows inner.visible →
    Walked scope (switch arms scope) (Statement.sitesOfArms inner arms) inner.visible
  | [], scope, inner, h => by
    rw [switch]
    exact Walked.refl h
  | (_, body) :: rest, scope, inner, h => by
    rw [switch, Statement.sitesOfArms_cons]
    have hbody := block_walked body scope inner h
    exact hbody.trans (switch_walked rest _ inner hbody.knows)

end

end Scope

/-! ## Programs -/

/-- The undefined reads of a program are the unresolved ones among its sites. -/
theorem Program.undefinedReads_eq (p : Program) : p.undefinedReads = Site.unresolved p.sites := by
  obtain ⟨name, ss, ds⟩ := p
  have hknows : Scope.empty.enter.Knows Place.start.visible := ⟨List.cons_ne_nil _ _, rfl⟩
  exact (Scope.statements_walked ss Scope.empty.enter .start hknows).reports

/-- The undefined reads of a program are, one for one and in the order in which they are written,
its reads of names that no statement defines that can be seen from there. -/
theorem Program.undefinedReads_eq_unresolved (p : Program) :
    p.undefinedReads
      = (p.sites.filter fun site => ¬ site.place.Resolves site.occurrence.name).map
          fun site => .undefinedRead site.occurrence.name site.occurrence.position := by
  rw [Program.undefinedReads_eq, Site.unresolved]
  congr 1
  apply List.filter_congr
  intro site _
  rw [Bool.eq_iff_iff, decide_eq_true_iff, Place.resolves_iff, Bool.not_eq_true', Bool.not_eq_true]

end Zed
