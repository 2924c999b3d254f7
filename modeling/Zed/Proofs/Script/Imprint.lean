import Zed.Proofs.Program.Erasure
import Zed.Proofs.Script.Layout
import Zed.Script.Text

/-!
# What a script keeps of a program

A script does not show where the variables of its program stand or what was reported about its
blocks, and more is lost. A switch without arms leaves no trace of its subject, and it is the same
command that an empty suite gets. Of the upper bound of a loop that does not count in whole numbers
only the number of passes is left. The name of the program is seen as the name of the function.

The imprint of a program is all but that. The script is written from the imprint alone
(`Program.script_eq_of_imprint_eq`).
-/

set_option autoImplicit false

namespace Zed

open Script

/-- What a script keeps of a statement. Variables are left without their places. -/
inductive Imprint where
  | assign (target : String) (value : Value) (operator : Option Arithmetic)
  | output (terms : List Term)
  | whileLoop (test : Condition) (body : List Imprint)
  | untilLoop (body : List Imprint) (test : Condition)
  /-- A loop that counts in whole numbers. -/
  | forRange (counter : String) (start stop step : Binary64) (body : List Imprint)
  /-- A loop of which the passes are counted. -/
  | forPasses (counter : String) (start step : Binary64) (passes : Nat) (body : List Imprint)
  | choice (branches : List (Option Condition × List Imprint))
  | switch (subject : String) (arms : List (Literal × List Imprint))
  /-- A switch without arms. -/
  | idle

/-- A suite without statements looks like one with a switch without arms. -/
def Imprint.suite : List Imprint → List Imprint
  | [] => [.idle]
  | i :: is => i :: is

mutual
def Statement.imprint : Statement → Imprint
  | .assign target value operator => .assign target.name value.erase operator
  | .output terms => .output (terms.map Term.erase)
  | .whileLoop test body => .whileLoop test.erase (Imprint.suite (Block.imprint body))
  | .untilLoop body test => .untilLoop (Imprint.suite (Block.imprint body)) test.erase
  | .forLoop counter start stop step body =>
    if countsWhole start stop step then
      .forRange counter.name start stop step (Imprint.suite (Block.imprint body))
    else
      .forPasses counter.name start step (passes start stop step) (Block.imprint body)
  | .choice branches => .choice (Statement.imprintBranches branches)
  | .switch _ [] => .idle
  | .switch subject (arm :: arms) => .switch subject.name (Statement.imprintArms (arm :: arms))
/-- Statements in order. -/
def Statement.imprintAll : List Statement → List Imprint
  | [] => []
  | s :: ss => Statement.imprint s :: Statement.imprintAll ss
def Block.imprint : Block → List Imprint
  | .mk ss _ => Statement.imprintAll ss
/-- The branches of a choice. -/
def Statement.imprintBranches :
    List (Option Condition × Block) → List (Option Condition × List Imprint)
  | [] => []
  | (test, body) :: others =>
    (test.map Condition.erase, Imprint.suite (Block.imprint body))
      :: Statement.imprintBranches others
/-- The arms of a switch. -/
def Statement.imprintArms : List (Literal × Block) → List (Literal × List Imprint)
  | [] => []
  | (label, body) :: others =>
    (label, Imprint.suite (Block.imprint body)) :: Statement.imprintArms others
end

/-- The name of the function and the imprint of its body. -/
def Program.imprint (p : Program) : String × List Imprint :=
  (functionName p.name, Imprint.suite p.body.imprint)

/-! ## Places and diagnostics -/

/-- A term without its position has none to lose. -/
theorem Term.erase_erase (t : Term) : t.erase.erase = t.erase := by
  cases t <;> rfl

theorem Term.map_erase_erase (ts : List Term) :
    (ts.map Term.erase).map Term.erase = ts.map Term.erase := by
  rw [List.map_map]
  exact List.map_congr_left fun t _ => t.erase_erase

theorem Value.erase_erase (v : Value) : v.erase.erase = v.erase := by
  cases v with
  | term t => exact congrArg Value.term t.erase_erase
  | input prompt => exact congrArg Value.input (Term.map_erase_erase prompt)

theorem Operand.erase_erase (o : Operand) : o.erase.erase = o.erase := by
  induction o with
  | term t => exact congrArg Operand.term t.erase_erase
  | condition negated relation left right ihl ihr =>
    rw [Operand.erase_condition, Operand.erase_condition, ihl, ihr]

/-- A condition without its positions has none to lose. -/
theorem Condition.erase_erase (c : Condition) : c.erase.erase = c.erase := by
  obtain ⟨negated, relation, left, right⟩ := c
  rw [Condition.erase_mk, Condition.erase_mk, left.erase_erase, right.erase_erase]

section Erasure

variable {report : List Diagnostic → List Diagnostic}

mutual

/-- The imprint of a statement does not depend on positions, nor on what its blocks report. -/
theorem Statement.imprint_erase : ∀ s : Statement, (s.erase report).imprint = s.imprint
  | .assign target value operator => congrArg (Imprint.assign target.name · operator)
      value.erase_erase
  | .output terms => congrArg Imprint.output (Term.map_erase_erase terms)
  | .whileLoop test body => by
    show Imprint.whileLoop test.erase.erase (Imprint.suite (body.erase report).imprint) = _
    rw [test.erase_erase, Block.imprint_erase body]
    rfl
  | .untilLoop body test => by
    show Imprint.untilLoop (Imprint.suite (body.erase report).imprint) test.erase.erase = _
    rw [test.erase_erase, Block.imprint_erase body]
    rfl
  | .forLoop counter start stop step body => by
    rw [Statement.erase_forLoop, Statement.imprint, Statement.imprint, Block.imprint_erase body]
    rfl
  | .choice branches => congrArg Imprint.choice (Statement.imprintBranches_erase branches)
  | .switch _ [] => rfl
  | .switch subject ((label, body) :: others) =>
    congrArg (Imprint.switch subject.name) (Statement.imprintArms_erase ((label, body) :: others))

/-- The imprint of a list of statements does not depend on positions or reports. -/
theorem Statement.imprintAll_erase : ∀ ss : List Statement,
    Statement.imprintAll (Statement.eraseAll report ss) = Statement.imprintAll ss
  | [] => rfl
  | s :: ss => by
    show (s.erase report).imprint :: Statement.imprintAll (Statement.eraseAll report ss) = _
    rw [Statement.imprint_erase s, Statement.imprintAll_erase ss]
    rfl

/-- The imprint of a block does not depend on positions or reports. -/
theorem Block.imprint_erase : ∀ b : Block, (b.erase report).imprint = b.imprint
  | .mk ss _ => Statement.imprintAll_erase ss

/-- The imprint of the branches of a choice does not depend on positions or reports. -/
theorem Statement.imprintBranches_erase : ∀ branches : List (Option Condition × Block),
    Statement.imprintBranches (Statement.eraseBranches report branches)
      = Statement.imprintBranches branches
  | [] => rfl
  | (test, body) :: others => by
    have htest : (test.map Condition.erase).map Condition.erase = test.map Condition.erase := by
      rw [Option.map_map]
      exact congrArg (Option.map · test) (funext Condition.erase_erase)
    show ((test.map Condition.erase).map Condition.erase, Imprint.suite (body.erase report).imprint)
      :: Statement.imprintBranches (Statement.eraseBranches report others) = _
    rw [htest, Block.imprint_erase body, Statement.imprintBranches_erase others]
    rfl

/-- The imprint of the arms of a switch does not depend on positions or reports. -/
theorem Statement.imprintArms_erase : ∀ arms : List (Literal × Block),
    Statement.imprintArms (Statement.eraseArms report arms) = Statement.imprintArms arms
  | [] => rfl
  | (label, body) :: others => by
    show (label, Imprint.suite (body.erase report).imprint)
      :: Statement.imprintArms (Statement.eraseArms report others) = _
    rw [Block.imprint_erase body, Statement.imprintArms_erase others]
    rfl
end

/-- The imprint of a program does not depend on positions or reports. -/
theorem Program.imprint_erase (p : Program) : (p.erase report).imprint = p.imprint := by
  show (functionName p.name, Imprint.suite (p.body.erase report).imprint) = _
  rw [Block.imprint_erase]
  rfl

end Erasure

/-! ## Items with the same lines -/

namespace Script

/-- The expression for a term does not depend on where the term stands. -/
theorem term_erase (t : Term) : term t.erase = term t := by
  cases t <;> rfl

/-- The prompt of an input does not depend on where its terms stand. -/
theorem prompt_erase (ts : List Term) : prompt (ts.map Term.erase) = prompt ts := by
  induction ts with
  | nil => rfl
  | cons t ts ih =>
    cases ts with
    | nil => exact congrArg (fun text => "str(" ++ text ++ ")") (term_erase t)
    | cons u ts =>
      show "str(" ++ term t.erase ++ ") + " ++ prompt ((u :: ts).map Term.erase) = _
      rw [ih, term_erase]
      rfl

/-- The expression for a value does not depend on where its terms stand. -/
theorem value_erase (v : Value) : value v.erase = value v := by
  cases v with
  | term t => exact term_erase t
  | input prompt => exact congrArg (fun text => "zedInput(" ++ text ++ ")") (prompt_erase prompt)

theorem printArguments_erase (ts : List Term) :
    printArguments (ts.map Term.erase) = printArguments ts := by
  induction ts with
  | nil => rfl
  | cons t ts ih =>
    show term t.erase ++ ", " ++ printArguments (ts.map Term.erase) = _
    rw [ih, term_erase]
    rfl

theorem operand_erase (o : Operand) : operand o.erase = operand o := by
  induction o with
  | term t => exact term_erase t
  | condition negated r left right ihl ihr =>
    rw [Operand.erase_condition, operand, ihl, ihr, operand]

/-- The expression for a condition does not depend on where its operands stand. -/
theorem condition_erase (c : Condition) : condition c.erase = condition c :=
  operand_erase c.toOperand

/-- The items are written as the same lines at every depth. -/
def SameLines (items others : List Item) : Prop :=
  ∀ depth, Item.linesOfList items depth = Item.linesOfList others depth

namespace SameLines

variable {items others rest more : List Item}

theorem refl (items : List Item) : SameLines items items :=
  fun _ => rfl

theorem line {command other : Command} (h : command.text = other.text) :
    SameLines [.line command] [.line other] := by
  intro depth
  show [Line.mk depth command.text] = [Line.mk depth other.text]
  rw [h]

/-- Items in a row have the same lines if their parts do. -/
theorem append (h : SameLines items others) (hrest : SameLines rest more) :
    SameLines (items ++ rest) (others ++ more) := by
  intro depth
  rw [Item.linesOfList_append, Item.linesOfList_append, h, hrest]

/-- A suite has the same lines as another one if the headers have the same text and the bodies
the same lines. -/
theorem suite {header other : Header} (hheader : header.text = other.text)
    (hbody : SameLines items others) (hrest : SameLines rest more) :
    SameLines (.suite header items :: rest) (.suite other others :: more) := by
  intro depth
  show Line.mk depth header.text :: Item.linesOfList items (depth + 1)
    ++ Item.linesOfList rest depth
    = Line.mk depth other.text :: Item.linesOfList others (depth + 1) ++ Item.linesOfList more depth
  rw [hheader, hbody, hrest]

end SameLines

end Script

/-! ## Writing an imprint -/

mutual
/-- The items of an imprint, which are those of its statement. -/
def Imprint.items : Imprint → List Item
  | .assign target value none => [.line (.assign target value)]
  | .assign target value (some operator) => [.line (.update target value operator)]
  | .output terms => [.line (.print terms)]
  | .whileLoop test body => [.suite (.whileTest test) (Imprint.itemsOfAll body)]
  | .untilLoop body test =>
    [.suite .forever (Imprint.itemsOfAll body ++ [.suite (.ifTest test) [.line .leave]])]
  | .forRange counter start stop step body =>
    [.suite (.forRange counter start stop step) (Imprint.itemsOfAll body)]
  | .forPasses counter start step passes body =>
    [.suite (.forPasses passes) (.line (placement counter start step) :: Imprint.itemsOfAll body)]
  | .choice branches => Imprint.itemsOfBranches true branches
  | .switch subject arms => Imprint.itemsOfArms subject true arms
  | .idle => [.line .pass]
/-- Imprints in order. -/
def Imprint.itemsOfAll : List Imprint → List Item
  | [] => []
  | i :: is => Imprint.items i ++ Imprint.itemsOfAll is
/-- The chain of branches; `first` marks its beginning. -/
def Imprint.itemsOfBranches : (first : Bool) → List (Option Condition × List Imprint) → List Item
  | _, [] => []
  | first, (some test, body) :: rest =>
    .suite (if first then .ifTest test else .elifTest test) (Imprint.itemsOfAll body)
      :: Imprint.itemsOfBranches false rest
  | _, (none, body) :: rest =>
    .suite .otherwise (Imprint.itemsOfAll body) :: Imprint.itemsOfBranches false rest
/-- The chain of arms; `first` marks its beginning. -/
def Imprint.itemsOfArms (subject : String) :
    (first : Bool) → List (Literal × List Imprint) → List Item
  | _, [] => []
  | first, (label, body) :: rest =>
    .suite (if first then .ifEqual subject label else .elifEqual subject label)
      (Imprint.itemsOfAll body)
      :: Imprint.itemsOfArms subject false rest
end

/-- The suite of a block has the lines of its imprint, if its statements have. An empty block needs
a line of its own, and so does an empty imprint. -/
theorem Script.SameLines.suiteOf {ss : List Statement}
    (h : SameLines (itemsOfStatements ss) (Imprint.itemsOfAll (Statement.imprintAll ss)))
    (ds : List Diagnostic) :
    SameLines (suiteOfBlock (.mk ss ds))
      (Imprint.itemsOfAll (Imprint.suite (Block.mk ss ds).imprint)) := by
  cases ss with
  | nil => exact .refl _
  | cons s ss => exact h

mutual

/-- The lines of a statement can be read off its imprint. -/
theorem Statement.sameLines : ∀ s : Statement, SameLines (itemsOfStatement s) s.imprint.items
  | .assign target value none =>
    .line (congrArg (fun text => target.name ++ " = " ++ text) (value_erase value).symm)
  | .assign target value (some operator) =>
    .line (congrArg (fun text => target.name ++ " = zedAssign(" ++ target.name ++ ", "
      ++ text ++ ", '" ++ operator.symbol.spelling ++ "')") (value_erase value).symm)
  | .output terms =>
    .line (congrArg (fun text => "print(" ++ text ++ ")") (printArguments_erase terms).symm)
  | .whileLoop test body =>
    .suite (congrArg (fun text => "while " ++ text ++ ":") (condition_erase test).symm)
      (Block.sameLines body) (.refl [])
  | .untilLoop body test =>
    have hleave : SameLines [.suite (.ifTest test) [.line .leave]]
        [.suite (.ifTest test.erase) [.line .leave]] :=
      .suite (congrArg (fun text => "if " ++ text ++ ":") (condition_erase test).symm)
        (.refl _) (.refl [])
    .suite rfl ((Block.sameLines body).append hleave) (.refl [])
  | .forLoop counter start stop step (.mk ss ds) => by
    rw [itemsOfStatement, Statement.imprint]
    split
    · exact .suite rfl (Block.sameLines (.mk ss ds)) (.refl [])
    · -- The suite begins with the placement of the counter, so an empty body needs no filler.
      have hplace := SameLines.refl [.line (placement counter.name start step)]
      exact .suite rfl (hplace.append (Statement.sameLinesAll ss)) (.refl [])
  | .choice branches => Statement.sameLinesBranches true branches
  | .switch _ [] => .refl _
  | .switch subject (arm :: arms) => Statement.sameLinesArms subject.name true (arm :: arms)

/-- The lines of a list of statements can be read off its imprint. -/
theorem Statement.sameLinesAll : ∀ ss : List Statement,
    SameLines (itemsOfStatements ss) (Imprint.itemsOfAll (Statement.imprintAll ss))
  | [] => .refl []
  | s :: ss => (Statement.sameLines s).append (Statement.sameLinesAll ss)

/-- The lines of a suite can be read off the imprint of its block. -/
theorem Block.sameLines : ∀ b : Block,
    SameLines (suiteOfBlock b) (Imprint.itemsOfAll (Imprint.suite b.imprint))
  | .mk ss ds => (Statement.sameLinesAll ss).suiteOf ds

/-- The lines of a chain of branches can be read off its imprint, from its first branch or from
a later one. -/
theorem Statement.sameLinesBranches : ∀ (first : Bool) (branches : List (Option Condition × Block)),
    SameLines (itemsOfBranches first branches)
      (Imprint.itemsOfBranches first (Statement.imprintBranches branches))
  | _, [] => .refl []
  | first, (some test, body) :: others => by
    have hheader : (if first then Header.ifTest test else .elifTest test).text
        = (if first then Header.ifTest test.erase else .elifTest test.erase).text := by
      cases first with
      | true => exact congrArg (fun text => "if " ++ text ++ ":") (condition_erase test).symm
      | false => exact congrArg (fun text => "elif " ++ text ++ ":") (condition_erase test).symm
    exact .suite hheader (Block.sameLines body) (Statement.sameLinesBranches false others)
  | _, (none, body) :: others =>
    .suite rfl (Block.sameLines body) (Statement.sameLinesBranches false others)

/-- The lines of the arms of a switch can be read off their imprint and the name of the subject. -/
theorem Statement.sameLinesArms (subject : String) :
    ∀ (first : Bool) (arms : List (Literal × Block)),
    SameLines (itemsOfArms subject first arms)
      (Imprint.itemsOfArms subject first (Statement.imprintArms arms))
  | _, [] => .refl []
  | _, (_, body) :: others =>
    .suite rfl (Block.sameLines body) (Statement.sameLinesArms subject false others)
end

/-- A script is written from the imprint of its program. -/
theorem Program.script_eq_of_imprint_eq {p q : Program} (h : p.imprint = q.imprint) :
    p.script = q.script := by
  have hname : functionName p.name = functionName q.name := congrArg Prod.fst h
  have hbody : Imprint.suite p.body.imprint = Imprint.suite q.body.imprint := congrArg Prod.snd h
  have hlines : Item.linesOfList (suiteOfBlock p.body) 1
      = Item.linesOfList (suiteOfBlock q.body) 1 := by
    rw [Block.sameLines p.body, Block.sameLines q.body, hbody]
  rw [Program.script, Program.script, lines, lines, functionLines, functionLines, hname, hlines]

/-- Nothing of the places and the diagnostics is seen in a script. -/
theorem Program.script_eq_of_bare_eq {p q : Program} (h : p.bare = q.bare) :
    p.script = q.script := by
  apply Program.script_eq_of_imprint_eq
  have himprint : p.bare.imprint = q.bare.imprint := congrArg Program.imprint h
  rwa [Program.bare, Program.bare, Program.imprint_erase, Program.imprint_erase] at himprint

end Zed
