import Zed.Proofs.Script.Layout

/-!
# The body of a script read back

The items of a well-formed statement are read as the Python statements that it stands for.
`ReadsAs items waiting ss` states this for any items: in front of other lines they give the
statements `ss`, and before these an `else` part `waiting` for an `if` that is still to come. So a
chain of branches can be read from its end, one branch at a time.
-/

set_option autoImplicit false

namespace Zed.Python

/-- A line that starts without a blank fits at every depth. -/
theorem Unindented.fits {text : String} (h : Unindented text) (hflat : '\n' ∉ text.toList)
    (depth : Nat) : (Script.Line.mk depth text).Fits := by
  refine ⟨hflat, ?_⟩
  obtain ⟨c, cs, hchars, hc⟩ := h
  rw [hchars]
  rintro ⟨⟩
  exact hc rfl

/-- A line that says something keeps its place in the layout. -/
theorem LineSays.full {text : String} {l : Line} (h : LineSays text l) (depth : Nat) :
    (Script.Line.mk depth text).Full := by
  refine ⟨h.unindented.fits h.flat depth, ?_⟩
  show (tokens text.toList).isEmpty = false
  cases htokens : tokens text.toList with
  | nil =>
    have hread := h.read
    rw [htokens] at hread
    cases hread
  | cons t ts => rfl

end Zed.Python

namespace Zed.Script

open Python

/-- The items are read as an `else` part and statements, at any depth and before any other lines. -/
structure ReadsAs (items : List Item) (waiting ss : List Stmt) : Prop where
  full : ∀ depth, ∀ l ∈ Item.linesOfList items depth, l.Full
  read : ∀ depth following after, statements following = some ([], after) →
    statements (Item.trees items depth ++ following) = some (waiting, ss ++ after)

/-! ## Lines and suites -/

namespace ReadsAs

variable {items others : List Item} {waiting ss ts : List Stmt}

theorem nil : ReadsAs [] [] [] where
  full _ _ hl := by cases hl
  read _ _ _ h := h

/-- A line is read as the statement it says. -/
theorem line {command : Command} {s : Stmt} (h : LineSays command.text (.simple s)) :
    ReadsAs [.line command] [] [s] where
  full depth l hl := by
    rw [Item.linesOfList, Item.linesOfList, List.append_nil, Item.lines, List.mem_singleton] at hl
    subst hl
    exact h.full depth
  read depth following after hfollowing := by
    show (statements following).bind (Item.tree (.line command) depth).statements = _
    rw [hfollowing, Option.bind_some, Item.tree, Tree.statements, h.read]
    rfl

/-- Items that are read one after the other are read as the statements of both. -/
theorem append (h : ReadsAs items waiting ss) (hothers : ReadsAs others [] ts) :
    ReadsAs (items ++ others) waiting (ss ++ ts) where
  full depth l hl := by
    rw [Item.linesOfList_append, List.mem_append] at hl
    rcases hl with hl | hl
    · exact h.full depth l hl
    · exact hothers.full depth l hl
  read depth following after hfollowing := by
    rw [Item.trees_append, List.append_assoc, List.append_assoc]
    exact h.read depth _ _ (hothers.read depth following after hfollowing)

/-- Items that leave nothing waiting are a suite, if there are any. -/
theorem suiteOf_eq (h : ReadsAs items [] ss) (hne : items ≠ []) (depth : Nat) :
    Python.suiteOf (Item.trees items depth) (statements (Item.trees items depth)) = some ss := by
  have hread := h.read depth [] [] rfl
  rw [List.append_nil, List.append_nil] at hread
  obtain ⟨item, rest, rfl⟩ := List.exists_cons_of_ne_nil hne
  rw [hread, Python.suiteOf, Item.aligned_trees]
  rfl

/-- A header with its suite, in front of items that may continue its chain. -/
theorem suite {header : Header} {head : Head} {body rest : List Item} {bs before after : List Stmt}
    (hheader : LineSays header.text (.head head)) (hbody : ReadsAs body [] bs) (hne : body ≠ [])
    (hrest : ReadsAs rest waiting ss)
    (hattach : ∀ others, attach (some bs) waiting (ss ++ others) (.head head)
      = some (before, after ++ others)) :
    ReadsAs (.suite header body :: rest) before after where
  full depth l hl := by
    rw [Item.linesOfList, Item.lines, List.mem_append, List.mem_cons] at hl
    rcases hl with (rfl | hl) | hl
    · exact hheader.full depth
    · exact hbody.full (depth + 1) l hl
    · exact hrest.full depth l hl
  read depth following others hfollowing := by
    show (statements (Item.trees rest depth ++ following)).bind
      (Item.tree (.suite header body) depth).statements = _
    have hchildren : (Item.trees body (depth + 1)).isEmpty = false := by
      obtain ⟨item, items, rfl⟩ := List.exists_cons_of_ne_nil hne
      rfl
    rw [hrest.read depth following others hfollowing, Option.bind_some, Item.tree, Tree.statements,
      hheader.read, Option.bind_some, hchildren, if_neg Bool.false_ne_true,
      hbody.suiteOf_eq hne (depth + 1), Option.bind_some]
    exact hattach others

end ReadsAs

/-! ## Suites are not empty -/

/-- A well-formed statement has a line. For a choice this needs its first branch. -/
theorem itemsOfStatement_ne_nil {a : Alphabet} {s : Statement} (h : s.WellFormed a) :
    itemsOfStatement s ≠ [] := by
  cases s with
  | assign target value operator => cases operator <;> simp [itemsOfStatement]
  | output | whileLoop | untilLoop => simp [itemsOfStatement]
  | forLoop counter start stop step body =>
    rw [itemsOfStatement]
    split <;> simp
  | choice branches =>
    rcases branches with _ | ⟨⟨_ | test, body⟩, others⟩
    · exact absurd h Statement.not_wellFormed_choice_nil
    · exact absurd h Statement.not_wellFormed_choice_none
    · simp [itemsOfStatement, itemsOfBranches]
  | switch subject arms => cases arms <;> simp [itemsOfStatement, itemsOfArms]

/-- The suite of a block has a line. -/
theorem suiteOfBlock_ne_nil {a : Alphabet} {b : Block} (h : b.WellFormed a) :
    suiteOfBlock b ≠ [] := by
  obtain ⟨ss, ds⟩ := b
  cases ss with
  | nil => simp [suiteOfBlock, suiteOf]
  | cons s ss =>
    have hs := (Statement.allWellFormed_cons.1 (Block.wellFormed_mk.1 h)).1
    simp [suiteOfBlock, suiteOf, itemsOfStatements, itemsOfStatement_ne_nil hs]

/-! ## Statements -/

/-- An empty block is written as a command that does nothing. -/
theorem ReadsAs.suiteOf {ss : List Statement}
    (h : ReadsAs (itemsOfStatements ss) [] (Statement.allToPython ss)) (ds : List Diagnostic) :
    ReadsAs (suiteOfBlock (.mk ss ds)) [] (Block.mk ss ds).toSuite := by
  cases ss with
  | nil => exact .line Command.says_pass
  | cons s ss => exact h

mutual

/-- The lines of a well-formed statement are read as its translation. -/
theorem itemsOfStatement_readsAs : ∀ s : Statement, s.WellFormed .source →
    ReadsAs (itemsOfStatement s) [] s.toPython
  | .assign target value none, h => by
    obtain ⟨htarget, hvalue⟩ := Statement.wellFormed_assign.1 h
    exact .line (Command.says_assign htarget hvalue)
  | .assign target value (some operator), h => by
    obtain ⟨htarget, hvalue⟩ := Statement.wellFormed_assign.1 h
    exact .line (Command.says_update operator htarget hvalue)
  | .output terms, h => .line (Command.says_print (Statement.wellFormed_output.1 h))
  | .whileLoop test body, h => by
    obtain ⟨htest, hbody⟩ := Statement.wellFormed_whileLoop.1 h
    exact .suite (Header.says_whileTest htest) (suiteOfBlock_readsAs body hbody)
      (suiteOfBlock_ne_nil hbody) .nil fun _ => rfl
  | .untilLoop body test, h => by
    obtain ⟨hbody, htest⟩ := Statement.wellFormed_untilLoop.1 h
    have hleave : ReadsAs [.suite (.ifTest test) [.line .leave]] []
        [.ifElse test.toExpr [.leave] []] :=
      .suite (Header.says_ifTest htest) (.line Command.says_leave) (by simp) .nil fun _ => rfl
    exact .suite Header.says_forever ((suiteOfBlock_readsAs body hbody).append hleave)
      (by simp) .nil
      fun _ => rfl
  | .forLoop counter start stop step body, h => by
    obtain ⟨hcounter, hstart, hstop, hstep, _, hbody⟩ := Statement.wellFormed_forLoop.1 h
    rw [itemsOfStatement, Statement.toPython]
    split
    · exact .suite (Header.says_forRange hcounter hstart hstop hstep)
        (suiteOfBlock_readsAs body hbody)
        (suiteOfBlock_ne_nil hbody) .nil fun _ => rfl
    · have hplace := ReadsAs.line (Command.says_place hcounter hstart hstep)
      exact .suite (Header.says_forPasses _) (hplace.append (itemsOfBlock_readsAs body hbody))
        (by simp)
        .nil fun _ => rfl
  | .choice [], h => absurd h Statement.not_wellFormed_choice_nil
  | .choice ((none, _) :: _), h => absurd h Statement.not_wellFormed_choice_none
  | .choice ((some test, body) :: others), h => by
    obtain ⟨htest, hbody, hothers⟩ := Statement.wellFormed_choice.1 h
    exact .suite (Header.says_ifTest htest) (suiteOfBlock_readsAs body hbody)
      (suiteOfBlock_ne_nil hbody)
      (itemsOfBranches_readsAs others hothers) fun _ => rfl
  | .switch subject [], _ => .line Command.says_pass
  | .switch subject ((label, body) :: others), h => by
    obtain ⟨hsubject, harms⟩ := Statement.wellFormed_switch.1 h
    obtain ⟨hlabel, hbody, hothers⟩ := Statement.wellFormedArms_cons.1 harms
    exact .suite (Header.says_ifEqual hsubject hlabel) (suiteOfBlock_readsAs body hbody)
      (suiteOfBlock_ne_nil hbody) (itemsOfArms_readsAs hsubject others hothers) fun _ => rfl

/-- The lines of well-formed statements are read as their translations. -/
theorem itemsOfStatements_readsAs : ∀ ss : List Statement, Statement.allWellFormed .source ss →
    ReadsAs (itemsOfStatements ss) [] (Statement.allToPython ss)
  | [], _ => .nil
  | s :: ss, h => by
    obtain ⟨hs, hss⟩ := Statement.allWellFormed_cons.1 h
    exact (itemsOfStatement_readsAs s hs).append (itemsOfStatements_readsAs ss hss)
theorem itemsOfBlock_readsAs : ∀ b : Block, b.WellFormed .source →
    ReadsAs (itemsOfBlock b) [] b.toPython
  | .mk ss _, h => itemsOfStatements_readsAs ss (Block.wellFormed_mk.1 h)

/-- The suite of a well-formed block is read as its translation. -/
theorem suiteOfBlock_readsAs : ∀ b : Block, b.WellFormed .source →
    ReadsAs (suiteOfBlock b) [] b.toSuite
  | .mk ss ds, h => (itemsOfStatements_readsAs ss (Block.wellFormed_mk.1 h)).suiteOf ds

/-- Further branches are read as the part of a conditional that is still to come. -/
theorem itemsOfBranches_readsAs : ∀ bs : List (Option Condition × Block),
    Statement.wellFormedBranches .source bs →
    ReadsAs (itemsOfBranches false bs) (Statement.branchesToPython bs) []
  | [], _ => .nil
  | (some test, body) :: others, h => by
    obtain ⟨htest, hbody, hothers⟩ := Statement.wellFormedBranches_some.1 h
    exact .suite (Header.says_elifTest htest) (suiteOfBlock_readsAs body hbody)
      (suiteOfBlock_ne_nil hbody) (itemsOfBranches_readsAs others hothers) fun _ => rfl
  | (none, body) :: others, h => by
    -- Nothing follows the last branch, so nothing waits for an `if` of its own.
    obtain ⟨hbody, rfl⟩ := Statement.wellFormedBranches_none.1 h
    exact .suite Header.says_otherwise (suiteOfBlock_readsAs body hbody)
      (suiteOfBlock_ne_nil hbody) .nil
      fun _ => rfl

/-- Further arms are read as the part of a conditional that is still to come. -/
theorem itemsOfArms_readsAs {subject : String} (hsubject : Variable.isName subject = true) :
    ∀ arms : List (Literal × Block), Statement.wellFormedArms .source arms →
    ReadsAs (itemsOfArms subject false arms) (Statement.armsToPython subject arms) []
  | [], _ => .nil
  | (label, body) :: others, h => by
    obtain ⟨hlabel, hbody, hothers⟩ := Statement.wellFormedArms_cons.1 h
    exact .suite (Header.says_elifEqual hsubject hlabel) (suiteOfBlock_readsAs body hbody)
      (suiteOfBlock_ne_nil hbody) (itemsOfArms_readsAs hsubject others hothers) fun _ => rfl
end

end Zed.Script
