import Zed.Compilation
import Zed.Proofs.Grammar.Blame
import Zed.Proofs.Scope.Report

/-!
# When a compilation succeeds

A compilation succeeds if nothing was reported, whatever the phases have produced.
That this is enough rests on the reading: if it yields no program it has a fault to
report or has run out of tokens, which is reported too. So there is a script exactly
if there is no diagnostic (`ofSource_gate`).

The diagnostics of a compilation are those of the reading, and after them what the course of the
reading adds: that the tokens ran out, or the reads of variables that nothing defines.
-/

set_option autoImplicit false

namespace Zed

/-- A diagnostic that blames a token says that the program is malformed. -/
theorem Diagnostic.Blames.kind {d : Diagnostic} {t : Token} (h : d.Blames t) :
    d.kind = .malformed := by
  obtain ⟨wanted, rfl⟩ := h
  rfl

theorem Diagnostic.IsUndefinedRead.kind {d : Diagnostic} (h : d.IsUndefinedRead) :
    d.kind = .undefinedRead := by
  obtain ⟨v, rfl⟩ := h
  rfl

/-- Every diagnostic that is charged blames one of the tokens. -/
theorem Charges.exists_blames {ts : List Token} {ds : List Diagnostic} (h : Charges ts ds) :
    ∀ d ∈ ds, ∃ t ∈ ts, d.Blames t := by
  induction h with
  | nil => exact fun _ hd => absurd hd List.not_mem_nil
  | @cons t ts ds more hblames _ _ ih =>
    intro d hd
    rcases List.mem_append.1 hd with hd | hd
    · exact ⟨t, List.mem_cons_self, hblames d hd⟩
    · obtain ⟨u, hu, hblamed⟩ := ih d hd
      exact ⟨u, List.mem_cons_of_mem t hu, hblamed⟩

/-- Every script has a first line. -/
theorem Program.script_ne_empty (p : Program) : p.script ≠ "" := by
  have hlines : Script.lines p ≠ [] := by simp [Script.lines]
  obtain ⟨line, more, heq⟩ := List.exists_cons_of_ne_nil hlines
  have hchars : (Script.lines p).flatMap Script.Line.chars ≠ [] := by
    rw [heq, List.flatMap_cons, Script.Line.chars]
    simp
  intro h
  apply hchars
  have htext := congrArg String.toList h
  rwa [Program.script, String.toList_ofList] at htext

namespace Compilation

open Reading (ofTokens)

/-- What a compilation reports in addition to the diagnostics of the reading, in the three cases
that there are. -/
inductive Added (reading : Reading) : List Diagnostic → Prop
  /-- The tokens ran out. -/
  | truncated : reading.incomplete = true → reading.program = none → Added reading [.truncated]
  /-- A program was read and is checked. -/
  | checked {p : Program} : reading.incomplete = false → reading.program = some p →
      Added reading p.undefinedReads
  /-- The beginning of the program was refused. -/
  | refused {d : Diagnostic} : reading.incomplete = false → reading.program = none →
      reading.diagnostics = [d] → reading.name = "" → Added reading []

/-- A compilation reports what the reading found, and then at most what the check of
its variables adds. -/
theorem reports_eq (ts : List Token) :
    ∃ added, Added (ofTokens ts) added ∧
      reports (ofTokens ts) = (ofTokens ts).diagnostics ++ added := by
  generalize hr : ofTokens ts = r
  cases hr ▸ Reading.ofTokens_course ts with
  | refused hheader => exact ⟨[], .refused rfl rfl rfl rfl, rfl⟩
  | unnamed hheader => exact ⟨[.truncated], .truncated rfl rfl, rfl⟩
  | unfinished hheader hbody => exact ⟨[.truncated], .truncated rfl rfl, by simp [reports, faults]⟩
  | finished hheader hbody => exact ⟨_, .checked rfl rfl, by simp [reports, faults]⟩

/-- A reading about which nothing is reported has a program. -/
theorem exists_program_of_reports_eq_nil {ts : List Token} (h : reports (ofTokens ts) = []) :
    ∃ p, (ofTokens ts).program = some p ∧ (ofTokens ts).incomplete = false := by
  obtain ⟨added, hadded, heq⟩ := reports_eq ts
  rw [heq, List.append_eq_nil_iff] at h
  cases hadded with
  | truncated _ _ => cases h.2
  | checked hincomplete hprogram => exact ⟨_, hprogram, hincomplete⟩
  | refused _ _ hone _ =>
    rw [hone] at h
    cases h.1

/-! The fields of a compilation. -/

theorem ofSource_success (source : String) :
    (ofSource source).success = (ofSource source).diagnostics.isEmpty := by
  rw [ofSource]

/-- A compilation reports what is found in the reading of its tokens. -/
theorem ofSource_diagnostics (source : String) :
    (ofSource source).diagnostics = reports (ofTokens (Token.ofSource source)) := by
  rw [ofSource]

/-- The output is the script, if there is one, and empty otherwise. -/
theorem ofSource_output (source : String) :
    (ofSource source).output = (script? (ofTokens (Token.ofSource source))).getD "" := by
  rw [ofSource]

theorem ofSource_programName (source : String) :
    (ofSource source).programName = (ofTokens (Token.ofSource source)).name := by
  rw [ofSource]

/-- If nothing is reported, the script of the program is put out. -/
theorem exists_output_eq_script {source : String} (h : (ofSource source).diagnostics = []) :
    ∃ p, (ofTokens (Token.ofSource source)).program = some p ∧
      (ofTokens (Token.ofSource source)).incomplete = false ∧
      (ofSource source).output = p.script := by
  rw [ofSource_diagnostics] at h
  obtain ⟨p, hprogram, hincomplete⟩ := exists_program_of_reports_eq_nil h
  refine ⟨p, hprogram, hincomplete, ?_⟩
  simp [ofSource_output, script?, h, hprogram]

/-- There is an output exactly if nothing is reported: a script is never empty. -/
theorem output_ne_empty_iff (source : String) :
    (ofSource source).diagnostics = [] ↔ (ofSource source).output ≠ "" := by
  constructor
  · intro h
    obtain ⟨p, -, -, houtput⟩ := exists_output_eq_script h
    rw [houtput]
    exact p.script_ne_empty
  · intro hne
    by_contra hreports
    rw [ofSource_diagnostics] at hreports
    simp [ofSource_output, script?, hreports] at hne

/-- The diagnostics of a reading say that a token is misplaced. -/
theorem kind_of_mem_diagnostics {ts : List Token} {d : Diagnostic}
    (h : d ∈ (ofTokens ts).diagnostics) : d.kind = .malformed := by
  obtain ⟨t, -, hblames⟩ := (Reading.ofTokens_charges ts).exists_blames d h
  exact hblames.kind

/-- Success, the absence of diagnostics and the presence of a script are one and the same, and then
the script is that of the program that was read. The diagnostics are those of the reading and, after
them, either one that says that the tokens ran out, or the undefined reads of the program, or none,
if there is neither a program nor a lack of tokens; then the reading itself has one. -/
theorem ofSource_gate (source : String) :
    let q := ofTokens (Token.ofSource source)
    let r := ofSource source
    ((r.success = true ↔ r.diagnostics = []) ∧ (r.diagnostics = [] ↔ r.output ≠ "")) ∧
    (r.success = true → ∃ p, q.program = some p ∧ q.incomplete = false ∧ r.output = p.script) ∧
    (∀ d ∈ q.diagnostics, d.kind = .malformed) ∧
    ((q.incomplete = true ∧ q.program = none ∧
        ∃ d, d.kind = .truncated ∧ d.position = none ∧ r.diagnostics = q.diagnostics ++ [d]) ∨
      (q.incomplete = false ∧ ∃ p, q.program = some p ∧
        (∀ d ∈ p.undefinedReads, d.kind = .undefinedRead) ∧
        r.diagnostics = q.diagnostics ++ p.undefinedReads) ∨
      (q.incomplete = false ∧ q.program = none ∧ q.diagnostics.length = 1 ∧ r.programName = "" ∧
        q.name = "" ∧ r.diagnostics = q.diagnostics)) := by
  intro q r
  have hsuccess : r.success = true ↔ r.diagnostics = [] := by
    rw [ofSource_success, List.isEmpty_iff]
  refine ⟨⟨hsuccess, output_ne_empty_iff source⟩, fun h => exists_output_eq_script (hsuccess.1 h),
    fun d => kind_of_mem_diagnostics, ?_⟩
  obtain ⟨added, hadded, hreports⟩ := reports_eq (Token.ofSource source)
  rw [← ofSource_diagnostics] at hreports
  cases hadded with
  | truncated hincomplete hprogram =>
    exact .inl ⟨hincomplete, hprogram, .truncated, rfl, rfl, hreports⟩
  | @checked p hincomplete hprogram =>
    have hkinds : ∀ d ∈ p.undefinedReads, d.kind = .undefinedRead :=
      fun d hd => (Program.isUndefinedRead_of_mem_undefinedReads hd).kind
    exact .inr (.inl ⟨hincomplete, p, hprogram, hkinds, hreports⟩)
  | refused hincomplete hprogram hone hname =>
    rw [List.append_nil] at hreports
    have hlength : q.diagnostics.length = 1 := congrArg List.length hone
    have hprogramName : r.programName = "" := (ofSource_programName source).trans hname
    exact .inr (.inr ⟨hincomplete, hprogram, hlength, hprogramName, hname, hreports⟩)

end Compilation

end Zed
