import Zed.Proofs.Script.Body

/-!
# Scripts read back

The function that the script of a well-formed program calls has the body that the program stands for
(`Program.functionBody?_script`). What is left to show for the whole text is that the function is
found: none of the lines before it begins the definition of a function without parameters, and its
own lines are the indented ones after its first line.
-/

set_option autoImplicit false

namespace Zed.Python

/-- The lines of a function stand between what comes before its definition and the call
at the end. -/
theorem linesOfFunction_eq {before body : List (Nat × List Tok)} {function : String}
    (hbefore : definition function ∉ before) (hbody : ∀ r ∈ body, 0 < r.1) :
    linesOfFunction function (before ++ definition function :: (body ++ [callRow function]))
      = some body := by
  have hskip : ∀ r ∈ before, decide (r ≠ definition function) = true := by
    intro r hr
    refine decide_eq_true ?_
    rintro rfl
    exact hbefore hr
  have honce : definition function ∉ body ++ [callRow function] := by
    rw [List.mem_append, not_or]
    refine ⟨fun hmem => absurd (hbody _ hmem) (Nat.lt_irrefl 0), ?_⟩
    simp [definition, callRow]
  have htake : (body ++ [callRow function]).takeWhile (fun r => decide (0 < r.1)) = body := by
    rw [List.takeWhile_append_of_pos fun r hr => decide_eq_true (hbody r hr)]
    simp [callRow]
  rw [linesOfFunction, List.dropWhile_append_of_pos hskip, List.dropWhile_cons_of_neg (by simp)]
  simp only [if_neg honce, htake]

theorem functionRows_eq {before body : List (Nat × List Tok)} {function : String}
    (hbefore : definition function ∉ before) (hbody : ∀ r ∈ body, 0 < r.1) :
    functionRows (before ++ definition function :: (body ++ [callRow function])) = some body := by
  have hlast : (before ++ definition function :: (body ++ [callRow function])).getLast?
      = some (callRow function) := by
    rw [← List.cons_append, ← List.append_assoc]
    exact List.getLast?_concat
  rw [functionRows, hlast]
  exact linesOfFunction_eq hbefore hbody

end Zed.Python

namespace Zed.Script

open Python

/-! ## The lines of a script -/

/-- The lines of the preamble fit, and none of them begins the definition of a
function without parameters. -/
theorem preamble_lines : ∀ l ∈ preamble,
    l.Fits ∧ (l.row.2.head? = some (.name "def") → l.row.2.length ≠ 5) := by
  decide +kernel

theorem definition_notMem_preamble (function : String) :
    definition function ∉ (preamble.map Line.row).filter fun r => !r.2.isEmpty := by
  intro hmem
  obtain ⟨l, hl, hrow⟩ := List.mem_map.1 (List.mem_filter.1 hmem).1
  refine (preamble_lines l hl).2 ?_ ?_ <;> rw [hrow] <;> rfl

theorem isWord_functionName {name : String} (h : Alphabet.source.ident name) :
    IsWord (functionName name) := by
  obtain ⟨hne, hall, _⟩ := h
  have hword : ∀ c, Lexeme.isIdentChar c = true → Lexeme.isWordChar c = true :=
    fun c hc => Lexeme.isWordChar_of_isIdentChar hc
  obtain ⟨c, cs, hchars⟩ := List.exists_cons_of_ne_nil hne
  rw [hchars, List.all_cons, Bool.and_eq_true, List.all_eq_true] at hall
  unfold functionName
  split
  · refine ⟨c, cs ++ ['_'], ?_, hall.1, ?_⟩
    · rw [String.toList_append, hchars]
      rfl
    · rw [List.all_append, List.all_eq_true.2 fun d hd => hword d (hall.2 d hd)]
      rfl
  · exact ⟨c, cs, hchars, hall.1, List.all_eq_true.2 fun d hd => hword d (hall.2 d hd)⟩

/-- The first line of a function. -/
theorem row_definition {function : String} (h : IsWord function) :
    (Line.mk 0 ("def " ++ function ++ "():")).row = definition function := by
  have hdef : Cuts "def " [.name "def"] := fun _ => rfl
  have hend : Cuts "():" [.sign .open, .sign .close, .sign .colon] := fun _ => rfl
  have htokens := ((hdef.append_spells h.spells).append_cuts hend rfl).tokens_eq
  rw [Line.row, htokens]
  rfl

/-- The last line of a script. -/
theorem row_call {function : String} (h : IsWord function) :
    (Line.mk 0 (function ++ "()")).row = callRow function := by
  have hend : Cuts "()" [.sign .open, .sign .close] := fun _ => rfl
  have htokens := (h.spells.append_cuts hend rfl).tokens_eq
  rw [Line.row, htokens]
  rfl

theorem fits_lines {p : Program} (h : p.WellFormed .source) : ∀ l ∈ lines p, l.Fits := by
  have hword := isWord_functionName h.name
  have hdef : Unindented "def " := ⟨_, _, rfl, by decide⟩
  have hblank : blank.Fits := by decide
  intro l hl
  simp only [lines, functionLines, List.mem_append, List.mem_cons, List.not_mem_nil, or_false] at hl
  rcases hl with (hl | rfl | rfl | rfl | hl) | rfl | rfl | rfl
  · exact (preamble_lines l hl).1
  · exact hblank
  · exact hblank
  · exact ((hdef.append _).append _).fits
      (flat_append (flat_append (by decide) hword.flat) (by decide)) 0
  · exact ((suiteOfBlock_readsAs p.body h.body).full 1 l hl).1
  · exact hblank
  · exact hblank
  · exact (hword.unindented.append _).fits (flat_append hword.flat (by decide)) 0

/-- The rows of a script: what stands before its function, the lines of the function,
and the call. -/
theorem rows_script {p : Program} (h : p.WellFormed .source) :
    rows p.script = (preamble.map Line.row).filter (fun r => !r.2.isEmpty)
      ++ definition (functionName p.name)
        :: ((Item.linesOfList (suiteOfBlock p.body) 1).map Line.row
          ++ [callRow (functionName p.name)]) := by
  have hword := isWord_functionName h.name
  have hbody := filter_rows_of_full ((suiteOfBlock_readsAs p.body h.body).full 1)
  rw [Program.script, rows_ofList (fits_lines h), lines, functionLines]
  simp only [List.map_append, List.map_cons, List.map_nil, List.filter_append, row_definition hword,
    row_call hword, List.append_assoc]
  -- Only the rows of the blank lines are left out.
  show _ ++ (definition _ :: (((Item.linesOfList (suiteOfBlock p.body) 1).map Line.row).filter
    (fun r => !r.2.isEmpty) ++ [callRow _])) = _
  rw [hbody]

end Zed.Script

namespace Zed

open Python Script

/-- The lines of the function that a script calls are those of the body of its program. -/
theorem Program.functionRows_script {p : Program} (h : p.WellFormed .source) :
    functionRows (rows p.script)
      = some ((Item.linesOfList (suiteOfBlock p.body) 1).map Line.row) := by
  have hbody : ∀ r ∈ (Item.linesOfList (suiteOfBlock p.body) 1).map Line.row, 0 < r.1 := by
    intro r hr
    obtain ⟨l, hl, rfl⟩ := List.mem_map.1 hr
    have hdepth := Item.depth_le_of_mem_linesOfList _ 1 hl
    show 0 < 4 * l.depth
    omega
  rw [rows_script h, functionRows_eq (definition_notMem_preamble _) hbody]

/-- The function that a script calls has the body that its program stands for. -/
theorem Program.functionBody?_script {p : Program} (h : p.WellFormed .source) :
    functionBody? p.script = some p.body.toSuite := by
  rw [functionBody?, functionRows_script h, Option.bind_some, layout_lines, suite]
  exact (suiteOfBlock_readsAs p.body h.body).suiteOf_eq (suiteOfBlock_ne_nil h.body) 1

end Zed
