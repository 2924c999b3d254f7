import Zed.Proofs.Python.Blocks
import Zed.Proofs.Script.Text

/-!
# Block structure of a script

The lines of the function of a script have the block structure that Python asks for,
whatever program it was written for and whatever was left out of that program when
it was read (`Program.blocks_script`).

The argument has three parts. Each line shows by its text what it is: only a header ends in a
colon, and only the headers that continue a chain begin with the words for that. The items of
a well-formed program form suites (`Suite`): no body is empty, every chain begins with a
header that can begin one, and a line that leaves a loop is in one. And the lines of a suite
have their places (`Suite.blocks`): a step of the induction puts the lines of one item in
front of lines that have theirs.
-/

set_option autoImplicit false

namespace Zed.Python

/-- A word that begins with another letter than the line is not the word of the line. -/
theorem Row.word_ne {r : Row} {c d : Char} {cs ds : List Char} (htext : r.text = c :: cs)
    (hne : c ≠ d) :
    r.word ≠ String.ofList (d :: ds) := by
  intro hword
  have hchars := congrArg String.toList hword
  rw [Row.word, String.toList_ofList, String.toList_ofList, htext, List.takeWhile_cons] at hchars
  split at hchars
  · cases hchars
    exact hne rfl
  · cases hchars

/-- The word of a row is what stands in front of the first character that is no letter. -/
theorem Row.word_eq {r : Row} {word : String} {c : Char} {cs : List Char}
    (htext : r.text = word.toList ++ c :: cs) (hword : word.toList.all Char.isAlpha = true)
    (hc : c.isAlpha = false) : r.word = word := by
  rw [Row.word, htext, List.takeWhile_append_of_pos (List.all_eq_true.1 hword),
    List.takeWhile_cons, hc]
  simp

end Zed.Python

namespace Zed.Script

open Python

/-! ## What a line shows of itself -/

/-- A line at its indentation. -/
def Line.toRow (l : Line) : Row :=
  ⟨4 * l.depth, l.text.toList⟩

/-- The characters of a line that fits give it back. -/
theorem Line.ofChars_of_fits {l : Line} (h : l.Fits) :
    Row.ofChars (List.replicate (4 * l.depth) ' ' ++ l.text.toList) = l.toRow := by
  have hspaces : ∀ c ∈ List.replicate (4 * l.depth) ' ', decide (c = ' ') = true := by
    intro c hc
    rw [List.eq_of_mem_replicate hc]
    rfl
  rw [Row.ofChars, List.takeWhile_append_of_pos hspaces, List.dropWhile_append_of_pos hspaces]
  have hstart := h.2
  cases hchars : l.text.toList with
  | nil => simp [Line.toRow, hchars]
  | cons c cs =>
    have hc : decide (c = ' ') = false := by
      refine decide_eq_false ?_
      rintro rfl
      exact hstart (by rw [hchars]; rfl)
    simp [Line.toRow, hchars, hc]

/-! ### Headers -/

/-- The word that a header begins with. -/
def Header.word : Header → String
  | .whileTest _ => "while"
  | .forever => "while"
  | .forRange _ _ _ _ => "for"
  | .forPasses _ => "for"
  | .ifTest _ => "if"
  | .elifTest _ => "elif"
  | .ifEqual _ _ => "if"
  | .elifEqual _ _ => "elif"
  | .otherwise => "else"

/-- A word and a character that ends it, and something up to a colon. -/
def HeadedBy (word text : String) : Prop :=
  ∃ c cs, text.toList = word.toList ++ c :: cs ∧ c.isAlpha = false ∧ (c :: cs).getLast? = some ':'

/-- A word with a blank and a colon around something is the head of a suite. -/
theorem headedBy_spaced (word rest : String) : HeadedBy word (word ++ " " ++ rest ++ ":") := by
  refine ⟨' ', rest.toList ++ [':'], by simp, rfl, ?_⟩
  rw [← List.cons_append]
  exact List.getLast?_concat

/-- The row of a head opens a suite. -/
theorem HeadedBy.opens {word text : String} (h : HeadedBy word text) (depth : Nat) :
    (Line.mk depth text).toRow.opens = true := by
  obtain ⟨c, cs, htext, _, hlast⟩ := h
  refine decide_eq_true ?_
  show text.toList.getLast? = some ':'
  rw [htext, List.getLast?_append, hlast]
  rfl

/-- The row of a head has its word. -/
theorem HeadedBy.word_eq {word text : String} (h : HeadedBy word text)
    (hword : word.toList.all Char.isAlpha = true) (depth : Nat) :
    (Line.mk depth text).toRow.word = word := by
  obtain ⟨c, cs, htext, hc, _⟩ := h
  exact Row.word_eq htext hword hc

/-- The line that the definition of a function begins with. -/
theorem headedBy_definition (function : String) : HeadedBy "def" ("def " ++ function ++ "():") := by
  have htext : "def " ++ function ++ "():" = "def" ++ " " ++ (function ++ "()") ++ ":" := by
    simp only [String.append_assoc]
    rfl
  exact htext ▸ headedBy_spaced "def" _

/-- The text of a header has the shape of a head. -/
theorem Header.headedBy_word (header : Header) : HeadedBy header.word header.text := by
  cases header with
  | whileTest test => exact headedBy_spaced "while" (condition test)
  | forever => exact headedBy_spaced "while" "True"
  | forRange counter start stop step =>
    have htext : Header.text (.forRange counter start stop step)
        = "for" ++ " " ++ (counter ++ " in range("
        ++ number start ++ ", " ++ number stop ++ " + 1, " ++ number step ++ ")") ++ ":" := by
      apply String.toList_inj.1
      show ("for " ++ counter ++ " in range(" ++ number start ++ ", " ++ number stop ++ " + 1, "
        ++ number step ++ "):").toList = _
      simp
    exact htext ▸ headedBy_spaced "for" _
  | forPasses count =>
    have htext : Header.text (.forPasses count) = "for" ++ " "
        ++ ("_n in range(" ++ count.repr ++ ")")
        ++ ":" := by
      apply String.toList_inj.1
      show ("for _n in range(" ++ count.repr ++ "):").toList = _
      simp
    exact htext ▸ headedBy_spaced "for" _
  | ifTest test => exact headedBy_spaced "if" (condition test)
  | elifTest test => exact headedBy_spaced "elif" (condition test)
  | ifEqual subject label =>
    have htext : Header.text (.ifEqual subject label)
        = "if" ++ " " ++ (subject ++ " == " ++ literal label) ++ ":" := by
      show "if " ++ subject ++ " == " ++ literal label ++ ":" = _
      simp only [String.append_assoc]
      rfl
    exact htext ▸ headedBy_spaced "if" _
  | elifEqual subject label =>
    have htext : Header.text (.elifEqual subject label)
        = "elif" ++ " " ++ (subject ++ " == " ++ literal label) ++ ":" := by
      show "elif " ++ subject ++ " == " ++ literal label ++ ":" = _
      simp only [String.append_assoc]
      rfl
    exact htext ▸ headedBy_spaced "elif" _
  | otherwise => exact ⟨':', [], rfl, rfl, rfl⟩

/-- Every header opens a suite. -/
theorem Header.opens_toRow (header : Header) (depth : Nat) :
    (Line.mk depth header.text).toRow.opens = true :=
  header.headedBy_word.opens depth

/-- A header is known by its word. -/
theorem Header.word_toRow (header : Header) (depth : Nat) :
    (Line.mk depth header.text).toRow.word = header.word := by
  refine header.headedBy_word.word_eq ?_ depth
  cases header <;> simp only [Header.word] <;> decide

/-! ### Commands -/

/-- The text ends in a character other than a colon. -/
def Unopened (text : String) : Prop :=
  ∃ cs c, text.toList = cs ++ [c] ∧ c ≠ ':'

theorem Unopened.append_left {b : String} (h : Unopened b) (a : String) : Unopened (a ++ b) := by
  obtain ⟨cs, c, hchars, hc⟩ := h
  exact ⟨a.toList ++ cs, c, by rw [String.toList_append, hchars, List.append_assoc], hc⟩

/-- A text without a colon opens no suite. -/
theorem unopened_of_notMem {text : String} (hne : text.toList ≠ []) (h : ':' ∉ text.toList) :
    Unopened text := by
  refine ⟨text.toList.dropLast, text.toList.getLast hne,
    (List.dropLast_concat_getLast hne).symm, ?_⟩
  intro hc
  exact h (hc ▸ List.getLast_mem hne)

/-- A quoted text ends in its quote, whatever stands in it, and opens no suite. -/
theorem unopened_text (body : String) : Unopened (text body) :=
  Unopened.append_left ⟨[], '"', rfl, by decide⟩ _

theorem unopened_name {x : String} (hx : Variable.isName x = true) : Unopened x := by
  obtain ⟨c, digits, hchars, hc, hdigits⟩ := Variable.isName_iff.1 hx
  refine unopened_of_notMem (by simp [hchars]) ?_
  rw [hchars, List.mem_cons, not_or]
  constructor
  · rintro rfl
    exact absurd hc (by decide)
  · intro hmem
    exact absurd (hdigits _ hmem) (by decide)

theorem colon_notMem_positional (coefficient places : Nat) :
    ':' ∉ Binary64.positional coefficient places := by
  have hwhole : ∀ n, ':' ∉ Nat.toDigits 10 n :=
    fun n hmem => absurd (Binary64.isDigit_toDigits _ hmem) (by decide)
  rcases Nat.eq_zero_or_pos places with rfl | hplaces
  · exact hwhole _
  · rw [Binary64.positional_of_pos hplaces, List.mem_append, List.mem_cons, not_or, not_or]
    refine ⟨hwhole _, by decide, ?_⟩
    intro hmem
    exact absurd (Binary64.isDigit_fractionDigits _ hmem) (by decide)

theorem positional_ne_nil (coefficient places : Nat) :
    Binary64.positional coefficient places ≠ [] := by
  rcases Nat.eq_zero_or_pos places with rfl | hplaces
  · exact Nat.toDigits_ne_nil
  · rw [Binary64.positional_of_pos hplaces]
    simp

/-- A number has no colon, and opens no suite. -/
theorem unopened_number {x : Binary64} (hx : x.IsUnsigned) : Unopened (number x) := by
  obtain ⟨rank, rfl⟩ := hx
  have hchars : (number (.finite false rank)).toList
      = Binary64.positional (Binary64.shortest rank).1 (Binary64.shortest rank).2 := by
    simp [number, sign]
  refine unopened_of_notMem ?_ ?_ <;> rw [hchars]
  · exact positional_ne_nil _ _
  · exact colon_notMem_positional _ _

/-- The expression for a value opens no suite. It may end in a text, a name, a number
or a bracket. -/
theorem unopened_value {v : Value} (h : v.WellFormed .source) : Unopened (value v) := by
  cases v with
  | term t =>
    cases t with
    | var x => exact unopened_name h
    | text body => exact unopened_text body
    | number x => exact unopened_number h
  | input prompt => exact Unopened.append_left ⟨[], ')', rfl, by decide⟩ _

/-- The command opens no suite, continues no chain, and leaves a loop only if it is the
command for that. -/
structure Command.Plain (command : Command) : Prop where
  unopened : Unopened command.text
  start : ∃ c cs, command.text.toList = c :: cs ∧ c ≠ 'e' ∧ (c = 'b' → command = .leave)

namespace Command

variable {x : String} {v : Value}

/-- A name begins with a capital letter, which is neither of those in question. -/
theorem start_of_isName {command : Command} {rest : String} (hx : Variable.isName x = true)
    (htext : command.text = x ++ rest) :
    ∃ c cs, command.text.toList = c :: cs ∧ c ≠ 'e' ∧ (c = 'b' → command = .leave) := by
  obtain ⟨c, digits, hchars, hc, _⟩ := Variable.isName_iff.1 hx
  refine ⟨c, digits ++ rest.toList, by rw [htext, String.toList_append, hchars, List.cons_append],
    ?_, ?_⟩
  · rintro rfl
    cases hc
  · rintro rfl
    cases hc

/-- The line of an assignment opens no suite, and starts with a name of the program. -/
theorem plain_assign (hx : Variable.isName x = true) (hv : v.WellFormed .source) :
    (Command.assign x v).Plain where
  unopened := (unopened_value hv).append_left _
  start := start_of_isName hx (String.append_assoc ..)

theorem plain_update (hx : Variable.isName x = true) (operator : Arithmetic) :
    (Command.update x v operator).Plain where
  unopened := Unopened.append_left ⟨['\''], ')', rfl, by decide⟩ _
  start := start_of_isName hx (by simp only [Command.text, String.append_assoc]; rfl)

theorem plain_place (hx : Variable.isName x = true) (start step : Binary64) (places : Nat) :
    (Command.place x start step places).Plain where
  unopened := Unopened.append_left ⟨[], ')', rfl, by decide⟩ _
  start := start_of_isName hx (by simp only [Command.text, String.append_assoc]; rfl)

theorem plain_print (terms : List Term) : (Command.print terms).Plain where
  unopened := Unopened.append_left ⟨[], ')', rfl, by decide⟩ _
  start := by
    refine ⟨'p', "rint(".toList ++ (printArguments terms).toList ++ [')'], ?_, by decide,
      by rintro ⟨⟩⟩
    rw [Command.text, String.toList_append, String.toList_append]
    rfl

theorem plain_pass : Command.pass.Plain where
  unopened := ⟨['p', 'a', 's'], 's', rfl, by decide⟩
  start := ⟨'p', _, rfl, by decide, by rintro ⟨⟩⟩

theorem plain_leave : Command.leave.Plain where
  unopened := ⟨['b', 'r', 'e', 'a'], 'k', rfl, by decide⟩
  start := ⟨'b', _, rfl, by decide, fun _ => rfl⟩

end Command

namespace Command.Plain

variable {command : Command} (h : command.Plain) (depth : Nat)
include h

/-- A plain line opens no suite. -/
theorem opens_toRow : (Line.mk depth command.text).toRow.opens = false := by
  obtain ⟨cs, c, hchars, hc⟩ := h.unopened
  refine decide_eq_false ?_
  show command.text.toList.getLast? ≠ some ':'
  rw [hchars, List.getLast?_concat]
  rintro ⟨⟩
  exact hc rfl

theorem word_ne_elif : (Line.mk depth command.text).toRow.word ≠ "elif" := by
  obtain ⟨c, cs, hchars, hc, _⟩ := h.start
  exact Row.word_ne hchars hc

theorem word_ne_else : (Line.mk depth command.text).toRow.word ≠ "else" := by
  obtain ⟨c, cs, hchars, hc, _⟩ := h.start
  exact Row.word_ne hchars hc

/-- The only plain line with the word `break` is the one that leaves a loop. -/
theorem eq_leave (hword : (Line.mk depth command.text).toRow.word = "break") :
    command = .leave := by
  obtain ⟨c, cs, hchars, _, hleave⟩ := h.start
  refine hleave ?_
  by_contra hc
  exact Row.word_ne hchars hc hword

end Command.Plain

/-! ## Suites -/

/-- The header can stand only behind a header of the same chain. -/
def Header.continues : Header → Bool
  | .elifTest _ | .elifEqual _ _ | .otherwise => true
  | _ => false

/-- The chain of the header may be continued. -/
def Header.chains : Header → Bool
  | .ifTest _ | .elifTest _ | .ifEqual _ _ | .elifEqual _ _ => true
  | _ => false

/-- The header opens an endless loop. -/
def Header.loops : Header → Bool
  | .forever => true
  | _ => false

namespace Header

variable {header : Header}

/-- What a branch can follow is headed by `if` or `elif`. -/
theorem word_of_chains (h : header.chains = true) : header.word = "if" ∨ header.word = "elif" := by
  cases header <;> simp [Header.chains] at h <;> simp [Header.word]

theorem continues_of_elif (h : header.word = "elif") : header.continues = true := by
  cases header <;> simp [Header.word] at h <;> rfl

theorem eq_otherwise_of_else (h : header.word = "else") : header = .otherwise := by
  cases header <;> simp [Header.word] at h
  rfl

theorem word_ne_break : header.word ≠ "break" := by
  cases header <;> simp [Header.word]

/-- The only loops that are left with `break` are endless ones. -/
theorem text_of_loops (h : header.loops = true) : header.text = "while True:" := by
  cases header <;> simp [Header.loops] at h
  rfl

end Header

/-- The items form the suite of a header, or the rest of one. They stand in an endless loop if
`looped`, and right behind a header whose chain may be continued if `chained`. -/
inductive Suite : (looped chained : Bool) → List Item → Prop
  | nil {looped chained : Bool} : Suite looped chained []
  | line {looped chained : Bool} {command : Command} {rest : List Item} (hplain : command.Plain)
      (hleave : command = .leave → looped = true) (hrest : Suite looped false rest) :
      Suite looped chained (.line command :: rest)
  | suite {looped chained : Bool} {header : Header} {body rest : List Item}
      (hchain : header.continues = true → chained = true) (hne : body ≠ [])
      (hbody : Suite (looped || header.loops) false body)
      (hrest : Suite looped header.chains rest) :
      Suite looped chained (.suite header body :: rest)

namespace Suite

variable {looped chained : Bool} {items others : List Item}

/-- Items that continue no chain may stand behind any header. -/
theorem mono (h : Suite looped false items) : Suite looped chained items := by
  cases h with
  | nil => exact .nil
  | line hplain hleave hrest => exact .line hplain hleave hrest
  | suite hchain hne hbody hrest =>
    refine .suite (fun hcontinues => ?_) hne hbody hrest
    cases hchain hcontinues

/-- A suite can be followed by items that do not go on with a chain. -/
theorem append (h : Suite looped chained items) (hothers : Suite looped false others) :
    Suite looped chained (items ++ others) := by
  induction h with
  | nil => exact hothers.mono
  | line hplain hleave hrest ih => exact .line hplain hleave (ih hothers)
  | suite hchain hne hbody hrest _ ih => exact .suite hchain hne hbody (ih hothers)

/-- A command alone. -/
theorem single {command : Command} (hplain : command.Plain)
    (hleave : command = .leave → looped = true) :
    Suite looped chained [.line command] :=
  .line hplain hleave .nil

end Suite

/-! ### The suites of a program -/

mutual

/-- The items of a statement are a suite that starts anew. -/
theorem itemsOfStatement_suite (looped : Bool) : ∀ s : Statement, s.WellFormed .source →
    Suite looped false (itemsOfStatement s)
  | .assign target value none, h => by
    obtain ⟨htarget, hvalue⟩ := Statement.wellFormed_assign.1 h
    exact .single (Command.plain_assign htarget hvalue) (by rintro ⟨⟩)
  | .assign target value (some operator), h => by
    obtain ⟨htarget, _⟩ := Statement.wellFormed_assign.1 h
    exact .single (Command.plain_update htarget operator) (by rintro ⟨⟩)
  | .output terms, _ => .single (Command.plain_print terms) (by rintro ⟨⟩)
  | .whileLoop test body, h => by
    obtain ⟨_, hbody⟩ := Statement.wellFormed_whileLoop.1 h
    exact .suite (by rintro ⟨⟩) (suiteOfBlock_ne_nil hbody) (suiteOfBlock_suite _ body hbody) .nil
  | .untilLoop body test, h => by
    obtain ⟨hbody, _⟩ := Statement.wellFormed_untilLoop.1 h
    -- The loop is endless, so the command behind its body may leave it.
    have hleave : Suite (looped || Header.forever.loops) false
        [.suite (.ifTest test) [.line .leave]] :=
      .suite (by rintro ⟨⟩) (by simp) (.single Command.plain_leave
        fun _ => by simp [Header.loops]) .nil
    exact .suite (by rintro ⟨⟩) (by simp) ((suiteOfBlock_suite _ body hbody).append hleave) .nil
  | .forLoop counter start stop step body, h => by
    obtain ⟨hcounter, _, _, _, _, hbody⟩ := Statement.wellFormed_forLoop.1 h
    rw [itemsOfStatement]
    split
    · exact .suite (by rintro ⟨⟩) (suiteOfBlock_ne_nil hbody) (suiteOfBlock_suite _ body hbody) .nil
    · -- The command that computes the counter comes first, so an empty block needs no other.
      have hplace := Command.plain_place hcounter start step (max (places start) (places step))
      exact .suite (by rintro ⟨⟩) (by simp)
        (.line hplace (by rintro ⟨⟩) (itemsOfBlock_suite _ body hbody))
        .nil
  | .choice [], h => absurd h Statement.not_wellFormed_choice_nil
  | .choice ((none, _) :: _), h => absurd h Statement.not_wellFormed_choice_none
  | .choice ((some test, body) :: others), h => by
    obtain ⟨_, hbody, hothers⟩ := Statement.wellFormed_choice.1 h
    exact .suite (by rintro ⟨⟩) (suiteOfBlock_ne_nil hbody) (suiteOfBlock_suite _ body hbody)
      (itemsOfBranches_suite looped others hothers)
  | .switch subject [], _ => .single Command.plain_pass (by rintro ⟨⟩)
  | .switch subject ((label, body) :: others), h => by
    obtain ⟨_, harms⟩ := Statement.wellFormed_switch.1 h
    obtain ⟨_, hbody, hothers⟩ := Statement.wellFormedArms_cons.1 harms
    exact .suite (by rintro ⟨⟩) (suiteOfBlock_ne_nil hbody) (suiteOfBlock_suite _ body hbody)
      (itemsOfArms_suite looped subject.name others hothers)

/-- The items of statements are a suite that starts anew. -/
theorem itemsOfStatements_suite (looped : Bool) : ∀ ss : List Statement,
    Statement.allWellFormed .source ss → Suite looped false (itemsOfStatements ss)
  | [], _ => .nil
  | s :: ss, h => by
    obtain ⟨hs, hss⟩ := Statement.allWellFormed_cons.1 h
    exact (itemsOfStatement_suite looped s hs).append (itemsOfStatements_suite looped ss hss)
theorem itemsOfBlock_suite (looped : Bool) : ∀ b : Block, b.WellFormed .source →
    Suite looped false (itemsOfBlock b)
  | .mk ss _, h => itemsOfStatements_suite looped ss (Block.wellFormed_mk.1 h)

/-- The suite of a block is one, also if the block is empty. -/
theorem suiteOfBlock_suite (looped : Bool) : ∀ b : Block, b.WellFormed .source →
    Suite looped false (suiteOfBlock b)
  | .mk [] _, _ => .single Command.plain_pass (by rintro ⟨⟩)
  | .mk (s :: ss) _, h => itemsOfStatements_suite looped (s :: ss) (Block.wellFormed_mk.1 h)

/-- The further branches of a choice go on with a chain. -/
theorem itemsOfBranches_suite (looped : Bool) : ∀ bs : List (Option Condition × Block),
    Statement.wellFormedBranches .source bs → Suite looped true (itemsOfBranches false bs)
  | [], _ => .nil
  | (some test, body) :: others, h => by
    obtain ⟨_, hbody, hothers⟩ := Statement.wellFormedBranches_some.1 h
    exact .suite (fun _ => rfl) (suiteOfBlock_ne_nil hbody) (suiteOfBlock_suite _ body hbody)
      (itemsOfBranches_suite looped others hothers)
  | (none, body) :: others, h => by
    -- The branch without a condition is the last, so the chain ends with it.
    obtain ⟨hbody, rfl⟩ := Statement.wellFormedBranches_none.1 h
    exact .suite (fun _ => rfl) (suiteOfBlock_ne_nil hbody) (suiteOfBlock_suite _ body hbody) .nil

/-- The further arms of a switch go on with a chain. -/
theorem itemsOfArms_suite (looped : Bool) (subject : String) : ∀ arms : List (Literal × Block),
    Statement.wellFormedArms .source arms → Suite looped true (itemsOfArms subject false arms)
  | [], _ => .nil
  | (label, body) :: others, h => by
    obtain ⟨_, hbody, hothers⟩ := Statement.wellFormedArms_cons.1 h
    exact .suite (fun _ => rfl) (suiteOfBlock_ne_nil hbody) (suiteOfBlock_suite _ body hbody)
      (itemsOfArms_suite looped subject others hothers)
end

/-! ## The places of the lines -/

/-- The lines of items that stand at a given depth. -/
def Item.rows (items : List Item) (depth : Nat) : List Row :=
  (Item.linesOfList items depth).map Line.toRow

namespace Item

variable {items : List Item} {depth : Nat}

theorem rows_line (command : Command) (rest : List Item) (depth : Nat) :
    rows (.line command :: rest) depth = (Line.mk depth command.text).toRow :: rows rest depth :=
  rfl

/-- The rows of a suite are its head, its body one level deeper, and what follows. -/
theorem rows_suite (header : Header) (body rest : List Item) (depth : Nat) :
    rows (.suite header body :: rest) depth
      = (Line.mk depth header.text).toRow :: (rows body (depth + 1) ++ rows rest depth) := by
  rw [rows, linesOfList, lines, List.cons_append, List.map_cons, List.map_append]
  rfl

/-- No row of items stands further to the left than the items do. -/
theorem le_indent_of_mem_rows {r : Row} (h : r ∈ rows items depth) : 4 * depth ≤ r.indent := by
  obtain ⟨l, hl, rfl⟩ := List.mem_map.1 h
  exact Nat.mul_le_mul_left 4 (depth_le_of_mem_linesOfList items depth hl)

/-- The lines of a suite are deeper than its header. -/
theorem lt_indent_of_mem_rows {r : Row} (h : r ∈ rows items (depth + 1)) :
    4 * depth < r.indent := by
  have hle := le_indent_of_mem_rows h
  omega

/-- The first row of items stands where the items do. -/
theorem exists_rows_eq_cons (hne : items ≠ []) (depth : Nat) :
    ∃ r rest, rows items depth = r :: rest ∧ r.indent = 4 * depth := by
  obtain ⟨item, others, rfl⟩ := List.exists_cons_of_ne_nil hne
  cases item with
  | line command => exact ⟨_, _, rows_line .., rfl⟩
  | suite header body => exact ⟨_, _, rows_suite .., rfl⟩

end Item

/-- The first line of a suite continues no chain. -/
theorem Suite.word_of_rows_eq_cons {looped : Bool} {items : List Item} {depth : Nat} {r : Row}
    {others : List Row} (h : Suite looped false items)
    (hrows : Item.rows items depth = r :: others) :
    r.word ≠ "elif" ∧ r.word ≠ "else" := by
  cases h with
  | nil => cases hrows
  | line hplain _ _ =>
    rw [Item.rows_line] at hrows
    cases hrows
    exact ⟨hplain.word_ne_elif depth, hplain.word_ne_else depth⟩
  | @suite _ _ header _ _ hchain _ _ _ =>
    rw [Item.rows_suite] at hrows
    cases hrows
    rw [header.word_toRow]
    constructor
    · intro hword
      cases hchain (Header.continues_of_elif hword)
    · intro hword
      obtain rfl := Header.eq_otherwise_of_else hword
      cases hchain rfl

/-- What the lines around a suite must offer it: the lines `past` before it, the latest first, and
the lines `future` behind it. -/
structure Room (looped chained : Bool) (depth : Nat) (past future : List Row) : Prop where
  pos : 0 < depth
  /-- Each level outside of the suite has a header around the suite. -/
  heads : ∀ k < depth, ∃ head ∈ enclosing (4 * depth) past, head.opens = true ∧ head.indent = 4 * k
  loop : looped = true → ∃ loop ∈ enclosing (4 * depth) past, loop.text = "while True:".toList
  chain : chained = true → Continues past (4 * depth)
  /-- What is behind the suite goes on at a level outside of it. -/
  next : ∀ next ∈ future.head?, ∃ k, k + 1 < depth ∧ next.indent = 4 * (k + 1)

namespace Room

variable {looped chained : Bool} {depth : Nat} {past future : List Row}

/-- Behind a part of the suite the lines go on at its level or outside of it. -/
theorem next_rows (h : Room looped chained depth past future) (rest : List Item) :
    ∀ next ∈ (Item.rows rest depth ++ future).head?,
      ∃ k, k + 1 ≤ depth ∧ next.indent = 4 * (k + 1) := by
  intro next hnext
  by_cases hne : rest = []
  · subst hne
    obtain ⟨k, hk, hindent⟩ := h.next next hnext
    exact ⟨k, hk.le, hindent⟩
  · obtain ⟨r, others, hrows, hindent⟩ := Item.exists_rows_eq_cons hne depth
    rw [hrows, List.cons_append, List.head?_cons, Option.mem_some_iff] at hnext
    subst hnext
    have hpos := h.pos
    exact ⟨depth - 1, by omega, by omega⟩

/-- The first of these lines is not deeper than the suite, so no line is passed over to find one. -/
theorem head?_of_find? {rest : List Item} {next : Row} (h : Room looped chained depth past future)
    (hnext : next ∈ (Item.rows rest depth ++ future).find? fun b => b.indent ≤ 4 * depth) :
    next ∈ (Item.rows rest depth ++ future).head? := by
  have hrows := h.next_rows rest
  cases hbehind : Item.rows rest depth ++ future with
  | nil =>
    rw [hbehind] at hnext
    cases hnext
  | cons r others =>
    rw [hbehind] at hnext hrows
    obtain ⟨k, hk, hindent⟩ := hrows r rfl
    have hle : decide (r.indent ≤ 4 * depth) = true := decide_eq_true (by omega)
    rwa [List.find?_cons, hle] at hnext

/-- Passing lines of the suite itself, there is room for the rest of it. -/
theorem after (h : Room looped chained depth past future) (passed : List Row) (again : Bool)
    (hpassed : ∀ r ∈ passed, 4 * depth ≤ r.indent)
    (hchain : again = true → Continues (passed ++ past) (4 * depth)) :
    Room looped again depth (passed ++ past) future where
  pos := h.pos
  heads := by
    rw [enclosing_append past hpassed]
    exact h.heads
  loop := by
    rw [enclosing_append past hpassed]
    exact h.loop
  chain := hchain
  next := h.next

/-- A head encloses the rows that stand one level deeper. -/
theorem enclosing_header (header : Header) (depth : Nat) (past : List Row) :
    enclosing (4 * (depth + 1)) ((Line.mk depth header.text).toRow :: past)
      = (Line.mk depth header.text).toRow :: enclosing (4 * depth) past := by
  rw [enclosing]
  exact if_pos (show 4 * depth < 4 * (depth + 1) by omega)

/-- Behind a header there is room for its suite, one level deeper. -/
theorem inside (h : Room looped chained depth past future) (header : Header) (rest : List Item) :
    Room (looped || header.loops) false (depth + 1) ((Line.mk depth header.text).toRow :: past)
      (Item.rows rest depth ++ future) where
  pos := Nat.succ_pos depth
  heads := by
    intro k hk
    rw [enclosing_header]
    rcases Nat.lt_succ_iff_lt_or_eq.1 hk with hk | rfl
    · obtain ⟨head, hmem, hhead⟩ := h.heads k hk
      exact ⟨head, List.mem_cons_of_mem _ hmem, hhead⟩
    · exact ⟨_, List.mem_cons_self .., header.opens_toRow k, rfl⟩
  loop := by
    intro hlooped
    rw [enclosing_header]
    -- The endless loop is one around the header, or the header opens it.
    rcases Bool.or_eq_true _ _ ▸ hlooped with hlooped | hloops
    · obtain ⟨loop, hmem, htext⟩ := h.loop hlooped
      exact ⟨loop, List.mem_cons_of_mem _ hmem, htext⟩
    · exact ⟨_, List.mem_cons_self .., congrArg String.toList (Header.text_of_loops hloops)⟩
  chain := by rintro ⟨⟩
  next := by
    intro next hnext
    obtain ⟨k, hk, hindent⟩ := h.next_rows rest next hnext
    exact ⟨k, by omega, hindent⟩

/-- A command has its place. -/
theorem placed_command {command : Command} (h : Room looped chained depth past future)
    (hplain : command.Plain) (hleave : command = .leave → looped = true) (rest : List Item) :
    Placed past (Line.mk depth command.text).toRow (Item.rows rest depth ++ future) where
  aligned := Nat.mul_mod_right 4 depth
  suite hopens := by
    rw [hplain.opens_toRow] at hopens
    cases hopens
  dedent _ next hnext := by
    obtain ⟨k, hk, hindent⟩ := h.next_rows rest next hnext
    obtain ⟨head, hmem, hopens, hhead⟩ := h.heads k hk
    refine ⟨?_, head, hmem, hopens, by omega⟩
    show next.indent ≤ 4 * depth
    omega
  elif hword := absurd hword (hplain.word_ne_elif depth)
  otherwise hword := absurd hword (hplain.word_ne_else depth)
  last hword := absurd hword (hplain.word_ne_else depth)
  leave hword := h.loop (hleave (hplain.eq_leave depth hword))

/-- A header has its place. -/
theorem placed_header {header : Header} {body rest : List Item}
    (h : Room looped chained depth past future) (hchain : header.continues = true → chained = true)
    (hne : body ≠ []) (hrest : Suite looped header.chains rest) :
    Placed past (Line.mk depth header.text).toRow
      (Item.rows body (depth + 1) ++ (Item.rows rest depth ++ future)) where
  aligned := Nat.mul_mod_right 4 depth
  suite _ := by
    obtain ⟨r, others, hrows, hindent⟩ := Item.exists_rows_eq_cons hne (depth + 1)
    rw [hrows]
    exact ⟨r, rfl, hindent⟩
  dedent hopens := by
    rw [header.opens_toRow] at hopens
    cases hopens
  elif hword := by
    rw [header.word_toRow] at hword
    exact h.chain (hchain (Header.continues_of_elif hword))
  otherwise hword := by
    rw [header.word_toRow] at hword
    obtain rfl := Header.eq_otherwise_of_else hword
    exact h.chain (hchain rfl)
  last hword next hnext hindent := by
    rw [header.word_toRow] at hword
    obtain rfl := Header.eq_otherwise_of_else hword
    -- The suite of the `else` is passed over, and what is found behind it comes first there.
    have hbehind := find?_append_of_deeper (Item.rows rest depth ++ future)
      fun r (hr : r ∈ Item.rows body (depth + 1)) => Item.lt_indent_of_mem_rows hr
    have hhead := h.head?_of_find? (hbehind ▸ hnext)
    by_cases hnil : rest = []
    · subst hnil
      obtain ⟨k, hk, hoff⟩ := h.next next hhead
      replace hindent : next.indent = 4 * depth := hindent
      omega
    · obtain ⟨r, others, hrows, _⟩ := Item.exists_rows_eq_cons hnil depth
      rw [hrows, List.cons_append, List.head?_cons, Option.mem_some_iff] at hhead
      subst hhead
      exact hrest.word_of_rows_eq_cons hrows
  leave hword := by
    rw [header.word_toRow] at hword
    exact absurd hword Header.word_ne_break

end Room

/-- The lines of a suite have their places, if there is room for it and the lines behind
it have theirs. -/
theorem Suite.blocks {looped chained : Bool} {items : List Item} (h : Suite looped chained items) :
    ∀ {depth : Nat} {past future : List Row}, Room looped chained depth past future →
      Blocks ((Item.rows items depth).reverse ++ past) future →
      Blocks past (Item.rows items depth ++ future) := by
  induction h with
  | nil => exact fun _ hfuture => hfuture
  | @line looped chained command rest hplain hleave hrest ih =>
    intro depth past future hroom hfuture
    rw [Item.rows_line] at hfuture ⊢
    rw [List.reverse_cons, List.append_assoc] at hfuture
    refine ⟨hroom.placed_command hplain hleave rest, ih ?_ hfuture⟩
    exact hroom.after [_] false (by simp [Line.toRow]) (by rintro ⟨⟩)
  | @suite looped chained header body rest hchain hne hbody hrest ihbody ihrest =>
    intro depth past future hroom hfuture
    rw [Item.rows_suite] at hfuture ⊢
    rw [List.reverse_cons, List.reverse_append, List.append_assoc, List.append_assoc] at hfuture
    rw [List.cons_append, List.append_assoc]
    -- The lines behind the body are those of the rest, so these are placed before the body is.
    refine ⟨hroom.placed_header hchain hne hrest,
      ihbody (hroom.inside header rest) (ihrest ?_ hfuture)⟩
    have hdeeper : ∀ r ∈ (Item.rows body (depth + 1)).reverse, 4 * depth < r.indent :=
      fun r hr => Item.lt_indent_of_mem_rows (List.mem_reverse.1 hr)
    have hpassed :
        ∀ r ∈ (Item.rows body (depth + 1)).reverse ++ [(Line.mk depth header.text).toRow],
        4 * depth ≤ r.indent := by
      intro r hr
      rcases List.mem_append.1 hr with hr | hr
      · exact (hdeeper r hr).le
      · rw [List.mem_singleton.1 hr]
        exact le_rfl
    have hafter := hroom.after _ header.chains hpassed ?_
    · rwa [List.append_assoc] at hafter
    · -- Behind its suite the header is the last line that is not deeper.
      intro hchains
      rw [List.append_assoc]
      refine ⟨(Line.mk depth header.text).toRow, ?_, rfl, header.opens_toRow depth, ?_⟩
      · rw [find?_append_of_deeper _ hdeeper]
        exact List.find?_cons_of_pos (decide_eq_true le_rfl)
      · rw [header.word_toRow]
        exact Header.word_of_chains hchains

/-! ## The function of a script -/

/-- Below the line that a function begins with there is room for its body. -/
theorem room_definition (function : String) :
    Room false false 1 [(Line.mk 0 ("def " ++ function ++ "():")).toRow] [] where
  pos := Nat.one_pos
  heads := by
    intro k hk
    obtain rfl := Nat.lt_one_iff.1 hk
    exact ⟨_, List.mem_cons_self .., (headedBy_definition function).opens 0, rfl⟩
  loop := by rintro ⟨⟩
  chain := by rintro ⟨⟩
  next := by rintro _ ⟨⟩

/-- The line that a function begins with needs nothing before it. -/
theorem placed_definition (function : String) {future : List Row}
    (h : ∃ next ∈ future.head?, next.indent = 4) :
    Placed [] (Line.mk 0 ("def " ++ function ++ "():")).toRow future := by
  have hheaded := headedBy_definition function
  have hword := hheaded.word_eq (by decide) 0
  refine ⟨rfl, fun _ => h, ?_, ?_, ?_, ?_, ?_⟩
  · rw [hheaded.opens]
    rintro ⟨⟩
  all_goals
    rw [hword]
    intro hother
    exact absurd hother (by decide)

/-- The function of a well-formed program is made of blocks as indentation demands. -/
theorem blocks_functionLines {p : Program} (h : p.WellFormed .source) :
    Blocks [] ((functionLines p).map Line.toRow) := by
  have hbody := (suiteOfBlock_suite false p.body h.body)
    |>.blocks (room_definition (functionName p.name)) trivial
  rw [List.append_nil] at hbody
  refine ⟨placed_definition (functionName p.name) ?_, hbody⟩
  obtain ⟨r, others, hrows, hindent⟩ := Item.exists_rows_eq_cons (suiteOfBlock_ne_nil h.body) 1
  refine ⟨r, ?_, hindent⟩
  show r ∈ (Item.rows (suiteOfBlock p.body) 1).head?
  rw [hrows]
  rfl

/-- A line as it stands in a text, without its line feed. -/
def Line.spread (l : Line) : List Char :=
  List.replicate (4 * l.depth) ' ' ++ l.text.toList

/-- No line of the preamble begins a function without parameters. -/
theorem definition_notMem_spread {p : Program} (h : p.WellFormed .source) :
    ("def " ++ functionName p.name ++ "():").toList
      ∉ (preamble ++ [blank, blank]).map Line.spread := by
  intro hmem
  obtain ⟨l, hl, hspread⟩ := List.mem_map.1 hmem
  have hword := isWord_functionName h.name
  have hfits : (Line.mk 0 ("def " ++ functionName p.name ++ "():")).Fits :=
    fits_lines h _ (by simp [lines, functionLines])
  rcases List.mem_append.1 hl with hl | hl
  · -- Read as tokens, the line would begin with `def` and have five of them.
    obtain ⟨hlfits, hshort⟩ := preamble_lines l hl
    have hrow : l.row = definition (functionName p.name) := by
      rw [← Line.row_of_fits hlfits, ← row_definition hword, ← Line.row_of_fits hfits]
      exact congrArg Python.row hspread
    refine hshort ?_ ?_ <;> rw [hrow] <;> rfl
  · have hblank : l = blank := by simpa using hl
    rw [hblank, String.toList_append, String.toList_append] at hspread
    cases hspread

end Zed.Script

namespace Zed

open Python Script

/-- The lines of a script from the definition of its function to the last of the body have the block
structure of Python, whatever source its program was read from. -/
theorem Program.blocks_script {source : String} {p : Program}
    (h : (Reading.ofTokens (Token.ofSource source)).program = some p) :
    ∃ before body : List (List Char),
      let definition := ("def " ++ functionName p.name ++ "():").toList
      Text.segments p.script.toList
        = before ++ definition :: body ++ [[], [], (functionName p.name ++ "()").toList, []] ∧
      definition ∉ before ∧ (∀ cs ∈ body, 0 < (Row.ofChars cs).indent) ∧
      Blocks [] ((definition :: body).map Row.ofChars) := by
  have hwf := Program.wellFormed_source h
  have hfits := fits_lines hwf
  have hofChars : ∀ l ∈ functionLines p, Row.ofChars l.spread = l.toRow :=
    fun l hl => Line.ofChars_of_fits (hfits l (by simp [lines, hl]))
  refine ⟨(preamble ++ [blank, blank]).map Line.spread,
    (Item.linesOfList (suiteOfBlock p.body) 1).map Line.spread, ?_,
    definition_notMem_spread hwf, ?_, ?_⟩
  · -- The text falls into its lines, because none of them holds a line feed.
    rw [Program.script, String.toList_ofList, segments_lines hfits]
    show (lines p).map Line.spread ++ [[]] = _
    simp only [lines, functionLines, List.map_append, List.map_cons, List.map_nil,
      List.append_assoc, List.cons_append, List.nil_append]
    rfl
  · intro cs hcs
    obtain ⟨l, hl, rfl⟩ := List.mem_map.1 hcs
    rw [hofChars l (List.mem_cons_of_mem _ hl)]
    have hdepth := Item.depth_le_of_mem_linesOfList _ 1 hl
    show 0 < 4 * l.depth
    omega
  · show Blocks [] (((functionLines p).map Line.spread).map Row.ofChars)
    have hrows : (functionLines p).map (Row.ofChars ∘ Line.spread)
        = (functionLines p).map Line.toRow :=
      List.map_congr_left hofChars
    rw [List.map_map, hrows]
    exact blocks_functionLines hwf

/-- A loop with fractions around an endless loop around a chain, and a switch; two branches of
the chain are left empty by a fault, and so is an arm of the switch. Strings end in what could
open a suite. -/
def emptyBranchesSource : String :=
  String.join ["PROG patchwork ", "FOR X FROM 0.5 ", "TO 2 BY 0.5 DO ", "REPEAT DO IF > X 1 ",
    "DO OUT[X \"~\"]: ENDDO ", "OTHERWISE IF ", "== X \"else:\" DO ", "WHEN ENDDO ",
    "OTHERWISE DO ", "SWITCH X ENDSWITCH ", "ENDDO ENDIF ENDDO ", "UNTIL == X 1 ",
    "ENDREPEAT ENDDO ", "ENDFOR SWITCH X ", "WHEN \"a:\" DO ", "= E1 \"else:\": ENDDO ",
    "WHEN 2 DO ENDDO ", "ENDSWITCH ENDPROG"]

theorem emptyBranchesSource_blocks :
    (Reading.ofTokens (Token.ofSource emptyBranchesSource)).diagnostics.length = 2 ∧
      ∃ p, (Reading.ofTokens (Token.ofSource emptyBranchesSource)).program = some p ∧
        (functionLines p).map Line.depth = [0, 1, 2, 2, 3, 4, 3, 4, 3, 4, 3, 4, 1, 2, 1, 2] ∧
        ∃ before body : List (List Char),
          Text.segments p.script.toList = before ++ "def patchwork():".toList :: body
            ++ [[], [], "patchwork()".toList, []] ∧
          "def patchwork():".toList ∉ before ∧ (∀ cs ∈ body, 0 < (Row.ofChars cs).indent) ∧
          Blocks [] (("def patchwork():".toList :: body).map Row.ofChars) := by
  have hread : (Reading.ofTokens (Token.ofSource emptyBranchesSource)).diagnostics.length = 2 ∧
      (Reading.ofTokens (Token.ofSource emptyBranchesSource)).program.map
        (fun p => (p.name, (functionLines p).map Line.depth))
        = some ("patchwork", [0, 1, 2, 2, 3, 4, 3, 4, 3, 4, 3, 4, 1, 2, 1, 2]) := by
    rw [emptyBranchesSource, Token.ofSource_join]
    decide +kernel
  obtain ⟨p, hp, hfacts⟩ := Option.map_eq_some_iff.1 hread.2
  have hname : p.name = "patchwork" := congrArg Prod.fst hfacts
  have hfunction : functionName "patchwork" = "patchwork" := by decide
  have hblocks := Program.blocks_script hp
  rw [hname, hfunction] at hblocks
  exact ⟨hread.1, p, hp, congrArg Prod.snd hfacts, hblocks⟩

end Zed
