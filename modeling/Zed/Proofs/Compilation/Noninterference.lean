import Zed.Compilation
import Zed.Proofs.Compilation.Gate
import Zed.Proofs.Grammar.Kinds
import Zed.Proofs.Scope.Names
import Zed.Proofs.Script.Imprint

/-!
# Layout does not matter

A compilation sees the kinds of the tokens of its source. How the tokens are spelled and where they
stand shows in the wording of diagnostics and in the places of variables, and it decides nothing:
not what is read, not what is reported and not what is written.
-/

set_option autoImplicit false

namespace Zed

/-! ## Reports and scripts of readings that are alike -/

/-- How many reads are undefined, and in which order, does not depend on positions. -/
theorem Program.kinds_undefinedReads_eq {p q : Program} (h : p.bare = q.bare) :
    Diagnostic.kinds p.undefinedReads = Diagnostic.kinds q.undefinedReads := by
  obtain ⟨vs, ws, hvs, hws, hnames⟩ := Program.undefinedReads_names h
  have hkinds : ∀ us : List Variable, Diagnostic.kinds (us.map Variable.report)
      = (us.map Variable.name).map fun _ => .undefinedRead := by
    intro us
    rw [Diagnostic.kinds, List.map_map, List.map_map]
    rfl
  rw [hvs, hws, hkinds, hkinds, hnames]

namespace Compilation

open Reading (ofTokens)

variable {r o : Reading}

/-- The kinds of the faults are those of any reading that is alike. -/
theorem kinds_faults_eq (h : r.Alike o) :
    Diagnostic.kinds (faults r) = Diagnostic.kinds (faults o) := by
  rw [faults, faults, Diagnostic.kinds_append, Diagnostic.kinds_append, h.diagnostics, h.incomplete]

/-- Readings that are alike have programs that are equal without places, or none. -/
theorem program_cases (h : r.Alike o) :
    (r.program = none ∧ o.program = none) ∨
      ∃ p q, r.program = some p ∧ o.program = some q ∧ p.bare = q.bare := by
  have hprogram := h.program
  cases hr : r.program with
  | none =>
    rw [hr, Option.map_none, eq_comm, Option.map_eq_none_iff] at hprogram
    exact .inl ⟨rfl, hprogram⟩
  | some p =>
    rw [hr, Option.map_some, eq_comm, Option.map_eq_some_iff] at hprogram
    obtain ⟨q, hq, hbare⟩ := hprogram
    exact .inr ⟨p, q, rfl, hq, hbare.symm⟩

/-- The kinds of the reports are those of any reading that is alike. -/
theorem kinds_reports_eq (h : r.Alike o) :
    Diagnostic.kinds (reports r) = Diagnostic.kinds (reports o) := by
  rw [reports, reports, Diagnostic.kinds_append, Diagnostic.kinds_append, kinds_faults_eq h]
  rcases program_cases h with ⟨hr, ho⟩ | ⟨p, q, hr, ho, hbare⟩
  · rw [hr, ho]
  · rw [hr, ho]
    exact congrArg _ (Program.kinds_undefinedReads_eq hbare)

theorem isEmpty_reports_eq (h : r.Alike o) : (reports r).isEmpty = (reports o).isEmpty := by
  have hempty : ∀ ds : List Diagnostic, ds.isEmpty = (Diagnostic.kinds ds).isEmpty := by
    intro ds
    cases ds <;> rfl
  rw [hempty, hempty, kinds_reports_eq h]

/-- The script is that of any reading that is alike. -/
theorem script?_eq (h : r.Alike o) : script? r = script? o := by
  rw [script?, script?, isEmpty_reports_eq h]
  rcases program_cases h with ⟨hr, ho⟩ | ⟨p, q, hr, ho, hbare⟩
  · rw [hr, ho]
  · rw [hr, ho, Option.map_some, Option.map_some, Program.script_eq_of_bare_eq hbare]

/-! ## Two runs -/

/-- Tokens of the same kinds are read as the same program, up to places and diagnostics. The same
names are reported about it in the same order, and its script is the same. So sources whose tokens
are of the same kinds are compiled with the same success and the same output, and with diagnostics
of the same kinds. -/
theorem kinds_decide :
    (∀ ts us : List Token, ts.map Token.kind = us.map Token.kind →
      (ofTokens ts).incomplete = (ofTokens us).incomplete ∧
      (ofTokens ts).name = (ofTokens us).name ∧
      (ofTokens ts).program.map Program.bare = (ofTokens us).program.map Program.bare ∧
      (ofTokens ts).diagnostics.length = (ofTokens us).diagnostics.length ∧
      ∀ p q, (ofTokens ts).program = some p → (ofTokens us).program = some q →
        (∃ vs ws : List Variable, p.undefinedReads = vs.map Variable.report ∧
          q.undefinedReads = ws.map Variable.report ∧
          vs.map Variable.name = ws.map Variable.name) ∧
        p.script = q.script) ∧
    ∀ source other : String,
      (Token.ofSource source).map Token.kind = (Token.ofSource other).map Token.kind →
      (ofSource source).success = (ofSource other).success ∧
      (ofSource source).output = (ofSource other).output ∧
      (ofSource source).diagnostics.map Diagnostic.kind
        = (ofSource other).diagnostics.map Diagnostic.kind := by
  constructor
  · intro ts us hkinds
    have halike := Reading.ofTokens_alike hkinds
    have hlength := congrArg List.length halike.diagnostics
    rw [Diagnostic.kinds, Diagnostic.kinds, List.length_map, List.length_map] at hlength
    refine ⟨halike.incomplete, halike.name, halike.program, hlength, fun p q hp hq => ?_⟩
    have hbare : p.bare = q.bare := by
      have hprogram := halike.program
      rw [hp, hq] at hprogram
      exact Option.some_inj.1 hprogram
    exact ⟨Program.undefinedReads_names hbare, Program.script_eq_of_bare_eq hbare⟩
  · intro source other hkinds
    have halike := Reading.ofTokens_alike hkinds
    have hdiagnostics := kinds_reports_eq halike
    rw [← ofSource_diagnostics, ← ofSource_diagnostics] at hdiagnostics
    refine ⟨isEmpty_reports_eq halike, ?_, hdiagnostics⟩
    rw [ofSource_output, ofSource_output, script?_eq halike]

/-- The same tokens on one line, and on two with other spaces and a comment. -/
theorem respaced_alike :
    (Token.ofSource "PROG a = X Y: ENDPROG").map Token.kind
      = (Token.ofSource "PROG a  # nothing\n=X Y :ENDPROG").map Token.kind ∧
    (ofSource "PROG a = X Y: ENDPROG").success
      = (ofSource "PROG a  # nothing\n=X Y :ENDPROG").success ∧
    (ofSource "PROG a = X Y: ENDPROG").output
      = (ofSource "PROG a  # nothing\n=X Y :ENDPROG").output ∧
    (ofSource "PROG a = X Y: ENDPROG").diagnostics.map Diagnostic.kind
      = (ofSource "PROG a  # nothing\n=X Y :ENDPROG").diagnostics.map Diagnostic.kind := by
  have hkinds : (Token.ofSource "PROG a = X Y: ENDPROG").map Token.kind
      = (Token.ofSource "PROG a  # nothing\n=X Y :ENDPROG").map Token.kind := by
    decide +kernel
  exact ⟨hkinds, kinds_decide.2 _ _ hkinds⟩

end Compilation

end Zed
