import Zed.Proofs.Script.Imprint
import Zed.Proofs.Script.Text
import Zed.Proofs.Token.Alphabet

/-!
# Imprints recovered from scripts

The imprint of a program can be recovered from its script, so programs with the same script have the
same imprint. The recovery has to be right only for lines that a script of a well-formed program can
have; for any others it gives something.

Lines are read from the last one. The branches of a chain wait until the line is read that begins
it. Only there the two kinds of chain are told apart: the test of a choice is in brackets and the
test of a switch is not.
-/

set_option autoImplicit false

namespace Zed

/-- A whole number is the one nearest to its whole part. -/
theorem Binary64.ofNat_wholePart {rank : Fin rankCount} (h : units rank % unitsPerOne = 0) :
    Binary64.ofNat (Primitives.wholePart (.finite false rank)) = .finite false rank :=
  ofNat_of_units_eq (Nat.div_mul_cancel (Nat.dvd_of_mod_eq_zero h)).symm

/-! ## Expressions -/

namespace Python

def Expr.toNumber : Expr → Binary64
  | .int n => .ofNat n
  | .float x => x
  | _ => .zero false

def Expr.toTerm : Expr → Term
  | .name x => .var ⟨x, .origin⟩
  | .text body => .text body
  | e => .number e.toNumber

def Expr.toLiteral : Expr → Literal
  | .text body => .text body
  | e => .number e.toNumber

def Operator.toRelation : Operator → Relation
  | .or => .or
  | .compare .atLeast => .atLeast
  | .compare .atMost => .atMost
  | .compare .greater => .greater
  | .compare .less => .less
  | .compare .equal => .equal
  | _ => .and

def Expr.toOperand : Expr → Operand
  | .not (.binary op left right) => .condition true op.toRelation left.toOperand right.toOperand
  | .binary op left right => .condition false op.toRelation left.toOperand right.toOperand
  | e => .term e.toTerm

def Expr.toCondition (e : Expr) : Condition :=
  match e.toOperand with
  | .condition negated relation left right => ⟨negated, relation, left, right⟩
  | .term t => ⟨false, .and, .term t, .term t⟩

/-- The terms that are joined to a prompt. -/
def Expr.toPrompt : Expr → List Term
  | .call _ [e] => [e.toTerm]
  | .binary _ left (.call _ [e]) => left.toPrompt ++ [e.toTerm]
  | _ => []

def Expr.toValue : Expr → Value
  | .call _ [e] => .input e.toPrompt
  | e => .term e.toTerm

/-- What is recovered from integers and floating-point numbers is recovered from every number. -/
theorem recover_numberExpr {α : Type} {f : Expr → α} {g : Binary64 → α} {x : Binary64}
    (hx : x.IsUnsigned) (hint : ∀ n, f (.int n) = g (.ofNat n)) (hfloat : ∀ y, f (.float y) = g y) :
    f (numberExpr x) = g x := by
  obtain ⟨rank, rfl⟩ := hx
  by_cases hwhole : Binary64.units rank % Binary64.unitsPerOne = 0
  · rw [numberExpr, if_pos (by simpa [Binary64.isWhole] using hwhole), hint,
      Binary64.ofNat_wholePart hwhole]
  · rw [numberExpr, if_neg (by simpa [Binary64.isWhole] using hwhole), hfloat]

/-- The number is found again in either of its spellings. -/
theorem toNumber_numberExpr {x : Binary64} (h : x.IsUnsigned) : (numberExpr x).toNumber = x :=
  recover_numberExpr (g := fun y => y) h (fun n => by rw [Expr.toNumber]) fun _ => rfl

end Python

open Python

/-- A term is found again in its expression, without its position. -/
theorem Term.toTerm_toExpr {t : Term} (h : t.WellFormed .source) : t.toExpr.toTerm = t.erase := by
  cases t with
  | var v => rfl
  | text body => rfl
  | number x =>
    exact recover_numberExpr (f := Expr.toTerm) (g := .number) h (fun _ => rfl) fun _ => rfl

/-- A literal is found again in its expression. -/
theorem Literal.toLiteral_toExpr {l : Literal} (h : l.WellFormed .source) :
    l.toExpr.toLiteral = l := by
  cases l with
  | text body => rfl
  | number x =>
    exact recover_numberExpr (f := Expr.toLiteral) (g := .number) h (fun _ => rfl) fun _ => rfl

theorem Relation.toRelation_toOperator (r : Relation) : r.toOperator.toRelation = r := by
  cases r <;> rfl

theorem Term.toOperand_toExpr {t : Term} (h : t.WellFormed .source) :
    t.toExpr.toOperand = .term t.erase := by
  cases t with
  | var v => rfl
  | text body => rfl
  | number x =>
    exact recover_numberExpr (f := Expr.toOperand) (g := fun y => .term (.number y)) h
      (fun _ => rfl) fun _ => rfl

/-- An operand is found again in its expression, without positions. -/
theorem Operand.toOperand_toExpr {o : Operand} (h : o.WellFormed .source) :
    o.toExpr.toOperand = o.erase := by
  induction o with
  | term t => exact Term.toOperand_toExpr h
  | condition negated r left right ihl ihr =>
    cases negated <;>
      rw [Operand.toExpr, Expr.toOperand, ihl h.1, ihr h.2, r.toRelation_toOperator,
        Operand.erase_condition]

/-- A condition is found again in its expression, without positions. -/
theorem Condition.toCondition_toExpr {c : Condition} (h : c.WellFormed .source) :
    c.toExpr.toCondition = c.erase := by
  have hoperand : c.toExpr.toOperand = c.toOperand.erase := Operand.toOperand_toExpr h
  rw [Expr.toCondition, hoperand]
  rfl

theorem Term.toPrompt_foldl {e : Expr} {before : List Term} (ts : List Term)
    (h : ∀ t ∈ ts, t.WellFormed .source) (he : e.toPrompt = before) :
    (ts.foldl (fun joined t => .binary .add joined t.toStrCall) e).toPrompt
      = before ++ ts.map Term.erase := by
  -- The sum leans to the left, so what is already joined varies along the induction.
  induction ts generalizing e before with
  | nil => rw [List.foldl_nil, he, List.map_nil, List.append_nil]
  | cons t ts ih =>
    have hjoined : (Expr.binary .add e t.toStrCall).toPrompt = before ++ [t.erase] := by
      rw [Term.toStrCall, Expr.toPrompt, he, toTerm_toExpr (h t (List.mem_cons_self ..))]
    rw [List.foldl_cons, ih (fun u hu => h u (List.mem_cons_of_mem _ hu)) hjoined,
      List.append_assoc]
    rfl

/-- The terms of a prompt are found again in its expression. -/
theorem Term.toPrompt_promptExpr {ts : List Term} (h : ∀ t ∈ ts, t.WellFormed .source) :
    (Term.promptExpr ts).toPrompt = ts.map Term.erase := by
  cases ts with
  | nil => rfl
  | cons t ts =>
    have hfirst : t.toStrCall.toPrompt = [t.erase] := by
      rw [Term.toStrCall, Expr.toPrompt, toTerm_toExpr (h t (List.mem_cons_self ..))]
    exact toPrompt_foldl ts (fun u hu => h u (List.mem_cons_of_mem _ hu)) hfirst

/-- A value is found again in its expression, without positions. -/
theorem Value.toValue_toExpr {v : Value} (h : v.WellFormed .source) :
    v.toExpr.toValue = v.erase := by
  cases v with
  | term t =>
    cases t with
    | var v => rfl
    | text body => rfl
    | number x =>
      exact recover_numberExpr (f := Expr.toValue) (g := fun y => .term (.number y)) h
        (fun _ => rfl) fun _ => rfl
  | input prompt => exact congrArg Value.input (Term.toPrompt_promptExpr h)

theorem Term.map_toTerm_toExpr {ts : List Term} (h : ∀ t ∈ ts, t.WellFormed .source) :
    (ts.map Term.toExpr).map Expr.toTerm = ts.map Term.erase := by
  rw [List.map_map]
  exact List.map_congr_left fun t ht => toTerm_toExpr (h t ht)

/-! ## Lines -/

namespace Python

/-- The imprint of a line without a suite. The line that computes the counter of a pass is taken for
a loop without passes and without a body. The header of its loop puts these in. -/
def Stmt.toImprints : Stmt → List Imprint
  | .assign x (.call _ [_, v, .text operator]) =>
    [.assign x v.toValue ((Symbol.ofSpelling? operator).bind Arithmetic.ofSymbol?)]
  | .assign x (.call _ [.binary _ start (.binary _ _ step), _]) =>
    [.forPasses x start.toNumber step.toNumber 0 []]
  | .assign x e => [.assign x e.toValue none]
  | .print es _ => [.output (es.map Expr.toTerm)]
  | .pass => [.idle]
  | _ => []

/-- What is recovered from lines: the branches in front that wait for the line that begins their
chain, and the imprints after them. -/
structure Recovered where
  waiting : List (Option Expr × List Imprint)
  after : List Imprint

/-- The word at the beginning of a line is followed by a bracket. -/
def bracketed : List Tok → Bool
  | _ :: .sign .open :: _ => true
  | _ => false

/-- The variable that the arms of a switch are compared with. -/
def subject : List (Option Expr × List Imprint) → String
  | (some (.binary _ (.name x) _), _) :: _ => x
  | _ => ""

/-- The constant of an arm. -/
def label : Option Expr → Literal
  | some (.binary _ _ e) => e.toLiteral
  | _ => .text ""

/-- A chain of branches: of a choice if its tests are in brackets, and of a switch if
they are not. -/
def branching (brackets : Bool) (branches : List (Option Expr × List Imprint)) : Imprint :=
  if brackets then .choice (branches.map fun branch => (branch.1.map Expr.toCondition, branch.2))
  else .switch (subject branches) (branches.map fun branch => (label branch.1, branch.2))

/-- An endless loop, which is left by the test at the end of its body. -/
def endless (body : List Imprint) : Imprint :=
  match body.getLast? with
  | some (.choice ((some test, _) :: _)) => .untilLoop body.dropLast test
  | _ => .idle

/-- A loop of counted passes, which begins with the line that computes its counter. -/
def counted (passes : Nat) : List Imprint → Imprint
  | .forPasses counter start step _ _ :: body => .forPasses counter start step passes body
  | _ => .idle

/-- Puts a header with its suite in front of what was recovered after it. -/
def Head.recover (brackets : Bool) (body : List Imprint) (r : Recovered) : Head → Recovered
  | .ifTest e => ⟨[], branching brackets ((some e, body) :: r.waiting) :: r.after⟩
  | .elifTest e => ⟨(some e, body) :: r.waiting, r.after⟩
  | .otherwise => ⟨(none, body) :: r.waiting, r.after⟩
  | .whileTest (.constant _) => ⟨[], endless body :: r.after⟩
  | .whileTest e => ⟨[], .whileLoop e.toCondition body :: r.after⟩
  | .forRange x [start, .binary _ stop _, step] =>
    ⟨[], .forRange x start.toNumber stop.toNumber step.toNumber body :: r.after⟩
  | .forRange _ [.int passes] => ⟨[], counted passes body :: r.after⟩
  | .forRange _ _ => r

mutual
/-- Puts a line with its suite in front of what was recovered after it. -/
def Tree.recover : Tree → Recovered → Recovered
  | .node _ ts children, r =>
    match line ts with
    | some (.simple s) => ⟨r.waiting, s.toImprints ++ r.after⟩
    | some (.head h) => h.recover (bracketed ts) (recover children).after r
    | none => r
/-- Recovers the imprints of lines at one depth. -/
def recover : List Tree → Recovered
  | [] => ⟨[], []⟩
  | t :: rest => t.recover (recover rest)
end

end Python

namespace Script

/-- Branches and imprints are recovered from the items, at any depth and before any other lines. -/
def Recovers (items : List Item) (waiting : List (Option Expr × List Imprint))
    (is : List Imprint) : Prop :=
  ∀ depth following, (recover following).waiting = [] →
    recover (Item.trees items depth ++ following) = ⟨waiting, is ++ (recover following).after⟩

namespace Recovers

variable {items others : List Item} {waiting : List (Option Expr × List Imprint)}
  {is js : List Imprint}

theorem nil : Recovers [] [] [] := by
  intro depth following hfollowing
  show recover following = ⟨[], (recover following).after⟩
  rw [← hfollowing]

/-- The imprint of a line is that of its statement. -/
theorem line {command : Command} {s : Stmt} (h : LineSays command.text (.simple s)) :
    Recovers [.line command] [] s.toImprints := by
  intro depth following hfollowing
  show (Item.tree (.line command) depth).recover (recover following) = _
  rw [Item.tree, Tree.recover, h.read, hfollowing]

/-- The imprints of items in a row are those of both parts. -/
theorem append (h : Recovers items waiting is) (hothers : Recovers others [] js) :
    Recovers (items ++ others) waiting (is ++ js) := by
  intro depth following hfollowing
  have hrest := hothers depth following hfollowing
  rw [Item.trees_append, List.append_assoc, h depth _ (by rw [hrest]), hrest, List.append_assoc]

/-- A header with its suite, in front of items that may continue its chain. -/
theorem suite {header : Header} {head : Head} {body rest : List Item} {bs after : List Imprint}
    {before : List (Option Expr × List Imprint)} (hheader : LineSays header.text (.head head))
    (hbody : Recovers body [] bs) (hrest : Recovers rest waiting is)
    (hattach : ∀ more, head.recover (bracketed (tokens header.text.toList)) bs ⟨waiting, is ++ more⟩
      = ⟨before, after ++ more⟩) :
    Recovers (.suite header body :: rest) before after := by
  intro depth following hfollowing
  have hchildren : (recover (Item.trees body (depth + 1))).after = bs := by
    have h := hbody (depth + 1) [] rfl
    rw [List.append_nil] at h
    rw [h]
    exact List.append_nil bs
  show (Item.tree (.suite header body) depth).recover
    (recover (Item.trees rest depth ++ following)) = _
  rw [hrest depth following hfollowing, Item.tree, Tree.recover, hheader.read]
  dsimp only
  rw [hchildren]
  exact hattach _

end Recovers

/-! ## Brackets -/

theorem condition_eq_append (test : Condition) : ∃ rest, condition test = "(" ++ rest := by
  obtain ⟨negated, r, left, right⟩ := test
  cases negated with
  | false =>
    refine ⟨operand left ++ " " ++ relation r ++ " " ++ operand right ++ ")", ?_⟩
    show "(" ++ operand left ++ " " ++ relation r ++ " " ++ operand right ++ ")" = _
    simp only [String.append_assoc]
  | true =>
    refine ⟨"not " ++ test false (operand left) (relation r) (operand right) ++ ")", ?_⟩
    show "(" ++ "not " ++ test false (operand left) (relation r) (operand right) ++ ")" = _
    simp only [String.append_assoc]

/-- The test of a choice is in brackets. -/
theorem bracketed_ifTest (test : Condition) :
    bracketed (tokens (Header.text (.ifTest test)).toList) = true := by
  have hopening : Cuts "if " [.name "if"] := fun _ => rfl
  obtain ⟨rest, hrest⟩ := condition_eq_append test
  have htext : Header.text (.ifTest test) = "if " ++ "(" ++ (rest ++ ":") := by
    show "if " ++ condition test ++ ":" = _
    rw [hrest, String.append_assoc, String.append_assoc, String.append_assoc]
  rw [htext, String.toList_append, hopening.append cuts_open]
  rfl

/-- The comparison of a switch is not in brackets, which tells it from the test of a choice. -/
theorem bracketed_ifEqual {x : String} (label : Literal) (hx : Variable.isName x = true) :
    bracketed (tokens (Header.text (.ifEqual x label)).toList) = false := by
  have hopening : Cuts "if " [.name "if"] := fun _ => rfl
  have hequal : Cuts " == " [.sign .equal] := fun _ => rfl
  have hcuts :=
    (hopening.append_spells (Variable.isWord_of_isName hx).spells).append_cuts hequal rfl
  have htext : Header.text (.ifEqual x label) = "if " ++ x ++ " == " ++ (literal label ++ ":") := by
    show "if " ++ x ++ " == " ++ literal label ++ ":" = _
    rw [String.append_assoc]
  rw [htext, String.toList_append, hcuts]
  rfl

/-! ## Commands -/

/-- The imprint of an assignment is found again. -/
theorem toImprints_assign {x : String} {v : Value} (h : v.WellFormed .source) :
    (Stmt.assign x v.toExpr).toImprints = [.assign x v.erase none] := by
  cases v with
  | term t =>
    cases t with
    | var v => rfl
    | text body => rfl
    | number y =>
      exact recover_numberExpr (f := fun e => (Stmt.assign x e).toImprints)
        (g := fun y => [.assign x (.term (.number y)) none]) h (fun _ => rfl) fun _ => rfl
  | input prompt =>
    show [Imprint.assign x (.input (Term.promptExpr prompt).toPrompt) none] = _
    rw [Term.toPrompt_promptExpr h]
    rfl

/-- The imprint of an assignment with an operator is found again in the call of the helper. -/
theorem toImprints_update {x : String} {v : Value} (operator : Arithmetic)
    (h : v.WellFormed .source) :
    (Stmt.assign x (.call "zedAssign" [.name x, v.toExpr,
      .text operator.symbol.spelling])).toImprints
      = [.assign x v.erase (some operator)] := by
  have hoperator : (Symbol.ofSpelling? operator.symbol.spelling).bind Arithmetic.ofSymbol?
      = some operator := by
    cases operator <;> rfl
  show [Imprint.assign x v.toExpr.toValue
    ((Symbol.ofSpelling? operator.symbol.spelling).bind Arithmetic.ofSymbol?)] = _
  rw [Value.toValue_toExpr h, hoperator]

/-- The start and the step of a loop are found again in the line that places its counter. -/
theorem toImprints_place {x : String} {start step : Binary64} (hstart : start.IsUnsigned)
    (hstep : step.IsUnsigned) :
    (Stmt.assign x (placedExpr start step)).toImprints = [.forPasses x start step 0 []] := by
  show [Imprint.forPasses x (numberExpr start).toNumber (numberExpr step).toNumber 0 []] = _
  rw [toNumber_numberExpr hstart, toNumber_numberExpr hstep]

/-- The imprint of an output is found again. -/
theorem toImprints_print {ts : List Term} (h : ∀ t ∈ ts, t.WellFormed .source) :
    (Stmt.print (ts.map Term.toExpr) "").toImprints = [.output (ts.map Term.erase)] := by
  show [Imprint.output ((ts.map Term.toExpr).map Expr.toTerm)] = _
  rw [Term.map_toTerm_toExpr h]

/-! ## Chains -/

/-- The branches of a choice after its first one, as they wait. -/
def waitingBranches (branches : List (Option Condition × Block)) :
    List (Option Expr × List Imprint) :=
  branches.map fun branch => (branch.1.map Condition.toExpr, Imprint.suite branch.2.imprint)

/-- The arms of a switch after its first one, as they wait. -/
def waitingArms (subject : String) (arms : List (Literal × Block)) :
    List (Option Expr × List Imprint) :=
  arms.map fun arm =>
    (some (.binary (.compare .equal) (.name subject) arm.1.toExpr), Imprint.suite arm.2.imprint)

/-- The branches that are still to come have the imprints of the branches. -/
theorem map_waitingBranches {branches : List (Option Condition × Block)}
    (h : Statement.wellFormedBranches .source branches) :
    (waitingBranches branches).map (fun branch => (branch.1.map Expr.toCondition, branch.2))
      = Statement.imprintBranches branches := by
  induction branches with
  | nil => rfl
  | cons branch others ih =>
    rcases branch with ⟨_ | test, body⟩
    · obtain ⟨_, rfl⟩ := Statement.wellFormedBranches_none.1 h
      rfl
    · obtain ⟨htest, _, hothers⟩ := Statement.wellFormedBranches_some.1 h
      show (some test.toExpr.toCondition, Imprint.suite body.imprint)
        :: (waitingBranches others).map
          (fun branch => (branch.1.map Expr.toCondition, branch.2)) = _
      rw [ih hothers, Condition.toCondition_toExpr htest]
      rfl

/-- The arms that are still to come have the imprints of the arms. -/
theorem map_waitingArms (subject : String) {arms : List (Literal × Block)}
    (h : Statement.wellFormedArms .source arms) :
    (waitingArms subject arms).map (fun arm => (label arm.1, arm.2))
      = Statement.imprintArms arms := by
  induction arms with
  | nil => rfl
  | cons arm others ih =>
    obtain ⟨constant, body⟩ := arm
    obtain ⟨hconstant, _, hothers⟩ := Statement.wellFormedArms_cons.1 h
    show (constant.toExpr.toLiteral, Imprint.suite body.imprint)
      :: (waitingArms subject others).map (fun arm => (label arm.1, arm.2)) = _
    rw [ih hothers, Literal.toLiteral_toExpr hconstant]
    rfl

/-- The imprint of a choice is put together from its first branch and those to come. -/
theorem branching_choice {test : Condition} {body : Block}
    {others : List (Option Condition × Block)}
    (h : Statement.wellFormedBranches .source ((some test, body) :: others)) :
    branching true ((some test.toExpr, Imprint.suite body.imprint) :: waitingBranches others)
      = (Statement.choice ((some test, body) :: others)).imprint :=
  congrArg Imprint.choice (map_waitingBranches h)

/-- The imprint of a switch is put together from its first arm and those to come. -/
theorem branching_switch {subject : Variable} {constant : Literal} {body : Block}
    {others : List (Literal × Block)}
    (h : Statement.wellFormedArms .source ((constant, body) :: others)) :
    branching false ((some (.binary (.compare .equal) (.name subject.name) constant.toExpr),
        Imprint.suite body.imprint) :: waitingArms subject.name others)
      = (Statement.switch subject ((constant, body) :: others)).imprint :=
  congrArg (Imprint.switch subject.name) (map_waitingArms subject.name h)

/-! ## Statements -/

theorem recover_whileTest {test : Condition} {body after : List Imprint} (brackets : Bool)
    (h : test.WellFormed .source) :
    (Head.whileTest test.toExpr).recover brackets body ⟨[], after⟩
      = ⟨[], .whileLoop test.erase body :: after⟩ := by
  rw [← Condition.toCondition_toExpr h]
  obtain ⟨negated, relation, left, right⟩ := test
  cases negated <;> rfl

/-- An endless loop that ends in a choice with one branch is a loop with its test behind. -/
theorem endless_append {test : Condition} {body : List Imprint} (suite : List Imprint) :
    endless (body ++ [.choice [(some test, suite)]]) = .untilLoop body test := by
  rw [endless, List.getLast?_concat, List.dropLast_concat]

/-- An empty suite is taken for a switch without arms. -/
theorem Recovers.suiteOf {ss : List Statement}
    (h : Recovers (itemsOfStatements ss) [] (Statement.imprintAll ss)) (ds : List Diagnostic) :
    Recovers (suiteOfBlock (.mk ss ds)) [] (Imprint.suite (Block.mk ss ds).imprint) := by
  cases ss with
  | nil => exact .line Command.says_pass
  | cons s ss => exact h

mutual

/-- The imprint of a statement is found again in its lines. -/
theorem itemsOfStatement_recovers : ∀ s : Statement, s.WellFormed .source →
    Recovers (itemsOfStatement s) [] [s.imprint]
  | .assign target value none, h => by
    obtain ⟨htarget, hvalue⟩ := Statement.wellFormed_assign.1 h
    have hline := Recovers.line (Command.says_assign htarget hvalue)
    rwa [toImprints_assign hvalue] at hline
  | .assign target value (some operator), h => by
    obtain ⟨htarget, hvalue⟩ := Statement.wellFormed_assign.1 h
    have hline := Recovers.line (Command.says_update operator htarget hvalue)
    rwa [toImprints_update operator hvalue] at hline
  | .output terms, h => by
    have hterms := Statement.wellFormed_output.1 h
    have hline := Recovers.line (Command.says_print hterms)
    rwa [toImprints_print hterms] at hline
  | .whileLoop test body, h => by
    obtain ⟨htest, hbody⟩ := Statement.wellFormed_whileLoop.1 h
    exact .suite (Header.says_whileTest htest) (suiteOfBlock_recovers body hbody) .nil
      fun _ => recover_whileTest _ htest
  | .untilLoop body test, h => by
    obtain ⟨hbody, htest⟩ := Statement.wellFormed_untilLoop.1 h
    -- The line that leaves the loop has no imprint, so the last branch has none in its suite.
    have hleave : Recovers [.suite (.ifTest test) [.line .leave]] []
        [.choice [(some test.erase, [])]] := by
      refine .suite (Header.says_ifTest htest) (.line Command.says_leave) .nil fun more => ?_
      rw [bracketed_ifTest, ← Condition.toCondition_toExpr htest]
      rfl
    refine .suite Header.says_forever ((suiteOfBlock_recovers body hbody).append hleave) .nil
      fun more => ?_
    show Recovered.mk [] (endless _ :: more) = _
    rw [endless_append]
    rfl
  | .forLoop counter start stop step body, h => by
    obtain ⟨hcounter, hstart, hstop, hstep, _, hbody⟩ := Statement.wellFormed_forLoop.1 h
    rw [itemsOfStatement, Statement.imprint]
    split
    · refine .suite (Header.says_forRange hcounter hstart hstop hstep)
        (suiteOfBlock_recovers body hbody) .nil
        fun more => ?_
      show Recovered.mk [] (Imprint.forRange counter.name (numberExpr start).toNumber
        (numberExpr stop).toNumber (numberExpr step).toNumber _ :: more) = _
      rw [toNumber_numberExpr hstart, toNumber_numberExpr hstop, toNumber_numberExpr hstep]
      rfl
    · have hplace := Recovers.line (Command.says_place hcounter hstart hstep)
      rw [toImprints_place hstart hstep] at hplace
      exact .suite (Header.says_forPasses _) (hplace.append (itemsOfBlock_recovers body hbody)) .nil
        fun _ => rfl
  | .choice [], h => absurd h Statement.not_wellFormed_choice_nil
  | .choice ((none, _) :: _), h => absurd h Statement.not_wellFormed_choice_none
  | .choice ((some test, body) :: others), h => by
    obtain ⟨htest, hbody, hothers⟩ := Statement.wellFormed_choice.1 h
    refine .suite (Header.says_ifTest htest) (suiteOfBlock_recovers body hbody)
      (itemsOfBranches_recovers others hothers) fun more => ?_
    have hbranches := Statement.wellFormedBranches_some.2 ⟨htest, hbody, hothers⟩
    rw [if_pos rfl, bracketed_ifTest, ← branching_choice hbranches]
    rfl
  | .switch subject [], _ => .line Command.says_pass
  | .switch subject ((label, body) :: others), h => by
    obtain ⟨hsubject, harms⟩ := Statement.wellFormed_switch.1 h
    obtain ⟨hlabel, hbody, hothers⟩ := Statement.wellFormedArms_cons.1 harms
    refine .suite (Header.says_ifEqual hsubject hlabel) (suiteOfBlock_recovers body hbody)
      (itemsOfArms_recovers hsubject others hothers) fun more => ?_
    rw [if_pos rfl, bracketed_ifEqual label hsubject, ← branching_switch harms]
    rfl

/-- The imprints of statements are found again in their lines. -/
theorem itemsOfStatements_recovers : ∀ ss : List Statement, Statement.allWellFormed .source ss →
    Recovers (itemsOfStatements ss) [] (Statement.imprintAll ss)
  | [], _ => .nil
  | s :: ss, h => by
    obtain ⟨hs, hss⟩ := Statement.allWellFormed_cons.1 h
    exact (itemsOfStatement_recovers s hs).append (itemsOfStatements_recovers ss hss)
theorem itemsOfBlock_recovers : ∀ b : Block, b.WellFormed .source →
    Recovers (itemsOfBlock b) [] b.imprint
  | .mk ss _, h => itemsOfStatements_recovers ss (Block.wellFormed_mk.1 h)

/-- The imprint of a block is found again in its suite, up to the line of an empty one. -/
theorem suiteOfBlock_recovers : ∀ b : Block, b.WellFormed .source →
    Recovers (suiteOfBlock b) [] (Imprint.suite b.imprint)
  | .mk ss ds, h => (itemsOfStatements_recovers ss (Block.wellFormed_mk.1 h)).suiteOf ds

/-- The imprints of further branches are found again, and wait for the first one. -/
theorem itemsOfBranches_recovers : ∀ bs : List (Option Condition × Block),
    Statement.wellFormedBranches .source bs →
    Recovers (itemsOfBranches false bs) (waitingBranches bs) []
  | [], _ => .nil
  | (some test, body) :: others, h => by
    obtain ⟨htest, hbody, hothers⟩ := Statement.wellFormedBranches_some.1 h
    exact .suite (Header.says_elifTest htest) (suiteOfBlock_recovers body hbody)
      (itemsOfBranches_recovers others hothers) fun _ => rfl
  | (none, body) :: others, h => by
    obtain ⟨hbody, rfl⟩ := Statement.wellFormedBranches_none.1 h
    exact .suite Header.says_otherwise (suiteOfBlock_recovers body hbody) .nil fun _ => rfl

/-- The imprints of further arms are found again, and wait for the first one. -/
theorem itemsOfArms_recovers {subject : String} (hsubject : Variable.isName subject = true) :
    ∀ arms : List (Literal × Block), Statement.wellFormedArms .source arms →
    Recovers (itemsOfArms subject false arms) (waitingArms subject arms) []
  | [], _ => .nil
  | (label, body) :: others, h => by
    obtain ⟨hlabel, hbody, hothers⟩ := Statement.wellFormedArms_cons.1 h
    exact .suite (Header.says_elifEqual hsubject hlabel) (suiteOfBlock_recovers body hbody)
      (itemsOfArms_recovers hsubject others hothers) fun _ => rfl
end

end Script

/-! ## Programs -/

open Script

/-- A script ends with the call of its function. -/
theorem Program.functionName_eq_of_script_eq {p q : Program} (hp : p.WellFormed .source)
    (hq : q.WellFormed .source) (h : p.script = q.script) :
    functionName p.name = functionName q.name := by
  have hlast : ∀ {r : Program}, r.WellFormed .source →
      (rows r.script).getLast? = some (callRow (functionName r.name)) := by
    intro r hr
    rw [rows_script hr, ← List.cons_append, ← List.append_assoc]
    exact List.getLast?_concat
  have hcall : callRow (functionName p.name) = callRow (functionName q.name) := by
    rw [← Option.some_inj, ← hlast hp, ← hlast hq, h]
  simpa [callRow] using hcall

/-- The imprint of a program can be seen in its script. -/
theorem Program.imprint_eq_of_script_eq {p q : Program} (hp : p.WellFormed .source)
    (hq : q.WellFormed .source) (h : p.script = q.script) : p.imprint = q.imprint := by
  have hrows : (Item.linesOfList (suiteOfBlock p.body) 1).map Line.row
      = (Item.linesOfList (suiteOfBlock q.body) 1).map Line.row := by
    rw [← Option.some_inj, ← functionRows_script hp, ← functionRows_script hq, h]
  have htrees : Item.trees (suiteOfBlock p.body) 1 = Item.trees (suiteOfBlock q.body) 1 := by
    rw [← layout_lines, ← layout_lines, hrows]
  -- `recover` reads the imprint off the trees without knowing the program, and the trees
  -- are the same.
  have hrecover : ∀ {b : Block}, b.WellFormed .source →
      (recover (Item.trees (suiteOfBlock b) 1)).after = Imprint.suite b.imprint := by
    intro b hb
    have hbody := suiteOfBlock_recovers b hb 1 [] rfl
    rw [List.append_nil] at hbody
    rw [hbody]
    exact List.append_nil _
  rw [Program.imprint, Program.imprint, functionName_eq_of_script_eq hp hq h, ← hrecover hp.body,
    ← hrecover hq.body, htrees]

/-- The scripts of two programs that were read from source texts are the same if and only if the
programs have the same imprint. -/
theorem Program.script_eq_iff_imprint_eq {source other : String} {p q : Program}
    (hp : (Reading.ofTokens (Token.ofSource source)).program = some p)
    (hq : (Reading.ofTokens (Token.ofSource other)).program = some q) :
    p.script = q.script ↔ p.imprint = q.imprint :=
  ⟨Program.imprint_eq_of_script_eq (Program.wellFormed_source hp) (Program.wellFormed_source hq),
    Program.script_eq_of_imprint_eq⟩

/-- A loop with fractions, around a switch without arms. -/
def plainTwinSource : String :=
  "PROG print FOR X FROM 0.5 TO 2 BY 0.5 DO SWITCH X ENDSWITCH ENDDO ENDFOR"
    ++ " WHEN > X 1 DO ENDDO ENDWHEN ENDPROG"

/-- The other twin has another name, another bound of its loop, another subject, and a switch
without arms instead of an empty block. -/
def otherTwinSource : String :=
  "PROG print_ FOR X FROM 0.5 TO 2.25 BY 0.5 DO SWITCH Y ENDSWITCH ENDDO ENDFOR"
    ++ " WHEN > X 1 DO SWITCH X ENDSWITCH ENDDO ENDWHEN ENDPROG"

theorem twins_script_eq_iff :
    ∃ p q, (Reading.ofTokens (Token.ofSource plainTwinSource)).program = some p ∧
      (Reading.ofTokens (Token.ofSource otherTwinSource)).program = some q ∧ p.name ≠ q.name ∧
      (p.script = q.script ↔ p.imprint = q.imprint) := by
  have hread : (Reading.ofTokens (Token.ofSource plainTwinSource)).program.map Program.name
      = some "print" ∧
      (Reading.ofTokens (Token.ofSource otherTwinSource)).program.map Program.name
        = some "print_" := by
    decide +kernel
  obtain ⟨p, hp, hpname⟩ := Option.map_eq_some_iff.1 hread.1
  obtain ⟨q, hq, hqname⟩ := Option.map_eq_some_iff.1 hread.2
  refine ⟨p, q, hp, hq, ?_, Program.script_eq_iff_imprint_eq hp hq⟩
  rw [hpname, hqname]
  decide

end Zed
