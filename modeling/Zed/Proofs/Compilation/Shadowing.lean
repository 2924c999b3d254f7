import Zed.Proofs.Compilation.Gate
import Zed.Proofs.Script.Names

/-!
# Shadowing

The function of a script stands beside what the script uses from outside of it: the two
functions and the module at its beginning, and what Python provides. A function of the same name
would hide one of these.

The name of the function is not reserved, is not that of a variable, and hides nothing, with one
exception: a program named `round` keeps its name, and if it has a loop that counts with
fractions, the body of its function calls `round` (`Compilation.shadows_iff_round`).
`roundNamedSource` is such a program.
-/

set_option autoImplicit false

namespace Zed

open Python Script

/-- The names that scripts use from outside of their own function. -/
def Script.runtimeNames : List String :=
  ["math", "input", "int", "float", "str", "len", "max", "range", "round", "print", "isinstance",
    "ValueError", "zedInput", "zedAssign"]

theorem Script.mem_runtimeNames_iff {x : String} :
    x ∈ runtimeNames ↔ x ∈ usedNames ∨ x = "round" := by
  have hperm : runtimeNames.Perm ("round" :: usedNames) := by decide +kernel
  rw [hperm.mem_iff, List.mem_cons, or_comm]

/-- A compilation that succeeds puts out the function of its program, with a call behind it. -/
theorem Compilation.exists_function {source : String} (h : (ofSource source).success = true) :
    ∃ p inside, (Reading.ofTokens (Token.ofSource source)).program = some p ∧ p.WellFormed .source ∧
      rows (ofSource source).output = (preamble.map Line.row).filter (fun r => !r.2.isEmpty)
        ++ definition (functionName p.name) :: (inside ++ [callRow (functionName p.name)]) ∧
      functionBody? (ofSource source).output = some p.body.toSuite := by
  rw [ofSource_success, List.isEmpty_iff] at h
  obtain ⟨p, hp, _, houtput⟩ := exists_output_eq_script h
  have hwf := Program.wellFormed_source hp
  rw [houtput]
  exact ⟨p, _, hp, hwf, rows_script hwf, Program.functionBody?_script hwf⟩

/-- The name of the function that a successful compilation puts out is no reserved word and no
variable. What is used from outside of functions are variables and the names listed, and the
function has none of these names unless the program is named `round`. It hides what is used exactly
if the program is named so and has a loop that counts with fractions. -/
theorem Compilation.shadows_iff_round {source : String} (h : (ofSource source).success = true) :
    ∃ p before inside body, (Reading.ofTokens (Token.ofSource source)).program = some p ∧
      let function := functionName p.name
      let used := (layout before).flatMap Tree.globals ++ globals body
      rows (ofSource source).output
        = before ++ definition function :: (inside ++ [callRow function]) ∧
      functionBody? (ofSource source).output = some body ∧
      function ∉ reservedWords ∧ Variable.isName function = false ∧
      (∀ x ∈ used, Variable.isName x = true ∨ x ∈ runtimeNames) ∧
      (∀ x ∈ runtimeNames, function = x ↔ x = "round" ∧ p.name = "round") ∧
      (function ∈ used ↔ p.name = "round" ∧ ∃ s ∈ p.statements, s.rounds = true) := by
  obtain ⟨p, inside, hp, hwf, hrows, hbody⟩ := exists_function h
  obtain ⟨hfree, hname, hround⟩ := functionName_free hwf.name.2.2.2
  rw [List.mem_append, not_or] at hfree
  have hrefers := Block.suite_refers p.body hwf.body
  refine ⟨p, _, inside, _, hp, hrows, hbody, hfree.1, hname, ?_, ?_, ?_⟩
  · intro x hx
    rcases List.mem_append.1 hx with hx | hx
    · exact .inr (mem_runtimeNames_iff.2 (.inl (mem_usedNames_of_preamble x hx)))
    · rcases hrefers.ordinary_or_round x hx with (hx | hx) | hx
      · exact .inl hx
      · exact .inr (mem_runtimeNames_iff.2 (.inl hx))
      · exact .inr (mem_runtimeNames_iff.2 (.inr hx))
  · intro x hx
    constructor
    · rintro rfl
      have heq := (mem_runtimeNames_iff.1 hx).resolve_left hfree.2
      exact ⟨heq, hround.1 heq⟩
    · rintro ⟨rfl, hp⟩
      exact hround.2 hp
  · rw [← List.any_eq_true, Program.statements, ← hrefers.round_mem_globals, List.mem_append]
    constructor
    · rintro (hx | hx)
      · exact absurd (mem_usedNames_of_preamble _ hx) hfree.2
      · -- Of what the body uses, the name can only be the one that is not left alone.
        rcases hrefers.ordinary_or_round _ hx with (hvariable | hused) | heq
        · rw [hname] at hvariable
          cases hvariable
        · exact absurd hused hfree.2
        · exact ⟨hround.1 heq, heq ▸ hx⟩
    · rintro ⟨hp, hx⟩
      rw [hround.2 hp]
      exact .inr hx

/-- A program whose name is taken, with an input, an operator, a loop with fractions
and one without. -/
def printNamedSource : String :=
  String.join ["PROG print FOR X ", "FROM 0.5 TO 2 BY 0.5 ", "DO = Y IN[\"?\" + X]: ",
    "= Y 1 +: OUT[Y]: ", "ENDDO ENDFOR FOR Z ", "FROM 1 TO 3 BY 2 DO ",
    "OUT[Z]: ENDDO ENDFOR ", "ENDPROG"]

theorem printNamedSource_shadows_nothing :
    (Compilation.ofSource printNamedSource).success = true ∧
      ∃ p before inside body,
        (Reading.ofTokens (Token.ofSource printNamedSource)).program = some p ∧
        rows (Compilation.ofSource printNamedSource).output
          = before ++ definition "print_" :: (inside ++ [callRow "print_"]) ∧
        functionBody? (Compilation.ofSource printNamedSource).output = some body ∧
        (∀ x ∈ (layout before).flatMap Tree.globals ++ globals body,
          Variable.isName x = true ∨ x ∈ runtimeNames) ∧
        "print_" ∉ (layout before).flatMap Tree.globals ++ globals body := by
  have hread : (Compilation.reports (Reading.ofTokens (Token.ofSource printNamedSource))).isEmpty
      = true ∧
      (Reading.ofTokens (Token.ofSource printNamedSource)).program.map Program.name
        = some "print" := by
    rw [printNamedSource, Token.ofSource_join]
    decide +kernel
  have hsuccess : (Compilation.ofSource printNamedSource).success = true := by
    rw [Compilation.ofSource_success, Compilation.ofSource_diagnostics]
    exact hread.1
  obtain ⟨p, before, inside, body, hp, hrows, hbody, _, _, hused, _, hshadows⟩ :=
    Compilation.shadows_iff_round hsuccess
  have hname : p.name = "print" := by
    have hname := hread.2
    rw [hp] at hname
    exact Option.some.inj hname
  have hfunction : functionName "print" = "print_" := by decide
  rw [hname, hfunction] at hrows hshadows
  refine ⟨hsuccess, p, before, inside, body, hp, hrows, hbody, hused, ?_⟩
  rw [hshadows]
  rintro ⟨hround, _⟩
  exact absurd hround (by decide)

/-- A program named `round` with a loop that counts with fractions. -/
def roundNamedSource : String :=
  String.join ["PROG round FOR A ", "FROM 0 TO 1 BY 0.5 ", "DO OUT[A]: ENDDO ", "ENDFOR ENDPROG"]

/-- Its function hides the function that rounds, and calls it. -/
theorem roundNamedSource_shadows_round :
    (Compilation.ofSource roundNamedSource).success = true ∧
      ∃ before inside body, rows (Compilation.ofSource roundNamedSource).output
          = before ++ definition "round" :: (inside ++ [callRow "round"]) ∧
        functionBody? (Compilation.ofSource roundNamedSource).output = some body ∧
          "round" ∈ globals body := by
  have hread : (Compilation.reports (Reading.ofTokens (Token.ofSource roundNamedSource))).isEmpty
      = true ∧
      (Reading.ofTokens (Token.ofSource roundNamedSource)).program.map
        (fun p => (p.name, p.statements.any Statement.rounds)) = some ("round", true) := by
    rw [roundNamedSource, Token.ofSource_join]
    decide +kernel
  have hsuccess : (Compilation.ofSource roundNamedSource).success = true := by
    rw [Compilation.ofSource_success, Compilation.ofSource_diagnostics]
    exact hread.1
  obtain ⟨p, inside, hp, hwf, hrows, hbody⟩ := Compilation.exists_function hsuccess
  have hfacts := hread.2
  rw [hp] at hfacts
  have hname : p.name = "round" := congrArg Prod.fst (Option.some.inj hfacts)
  have hrounds : p.statements.any Statement.rounds = true :=
    congrArg Prod.snd (Option.some.inj hfacts)
  have hfunction : functionName "round" = "round" := by decide
  rw [hname, hfunction] at hrows
  exact ⟨hsuccess, _, inside, _, hrows, hbody,
    (Block.suite_refers p.body hwf.body).round_mem_globals.2 hrounds⟩

end Zed
