import Zed.Proofs.Grammar.Course

/-!
# Every diagnostic is accounted for

Diagnostics travel in three ways: in the list that a block keeps, beside a statement that was read,
and in the report of a failure. Between them these carry exactly what was made, as the rules are
known to do (`Rule.Reads`), and what was made is what is in the log.

Main result: reading with a log is reading, and the log is the list of diagnostics
(`Reading.ofTokens_diagnostics_eq_log`).
-/

set_option autoImplicit false

namespace Zed

/-- The diagnostics in an outcome of a block. -/
def Outcome.reported : Outcome Block → List Diagnostic
  | .done body _ => body.diagnostics
  | .rejected report _ => report
  | .ended report => report
  | .exhausted => []

/-- The outcome of a block has all diagnostics that were made, provided that the fuel lasts. -/
theorem Rule.block_reported {fuel : Nat} {ts : List Token} (hlt : ts.length < fuel)
    (close : Keyword) (skipping : Bool) :
    (block fuel close skipping ts).reported = (block fuel close skipping).made ts := by
  have hreads := block_gathers fuel close skipping
  cases hb : block fuel close skipping ts with
  | done body rest =>
    obtain ⟨-, -, hmade, -⟩ := hreads.done hb
    exact hmade.symm
  | rejected report rest => exact absurd hb block_ne_rejected
  | ended report => exact hreads.ended hb
  | exhausted => exact absurd hb (hreads.ne_exhausted hlt)

namespace Reading

/-- Reading with a log is reading, and in the end the log is the list of diagnostics: nothing that
was made is left out of it, stands in it twice, or has changed its place. -/
theorem ofTokens_diagnostics_eq_log (tokens : List Token) :
    withLog tokens = (ofTokens tokens, (ofTokens tokens).diagnostics) := by
  have hheader := @Rule.header_reads tokens.length
  generalize hr : ofTokens tokens = r
  cases hr ▸ ofTokens_course tokens with
  | refused hrefused =>
    have hmade := (hheader.rejected hrefused).1
    simp only [withLog, Rule.logged_eq, hrefused, List.nil_append, ← hmade]
  | unnamed hunnamed =>
    have hmade := hheader.ended hunnamed
    simp only [withLog, Rule.logged_eq, hunnamed, List.nil_append, ← hmade]
  | @unfinished name us report hname hbody =>
    obtain ⟨-, -, hquiet, -⟩ := hheader.done hname
    have hmade := Rule.block_reported (Nat.lt_succ_self us.length) .ENDPROG false
    rw [hbody] at hmade
    have hreport : report = (Rule.block (us.length + 1) .ENDPROG false).made us := hmade
    simp only [withLog, Rule.logged_eq, hname, hbody, hquiet, List.nil_append, ← hreport]
  | @finished name us rest body hname hbody =>
    obtain ⟨-, -, hquiet, -⟩ := hheader.done hname
    have hmade := Rule.block_reported (Nat.lt_succ_self us.length) .ENDPROG false
    rw [hbody] at hmade
    have hkept : body.diagnostics = (Rule.block (us.length + 1) .ENDPROG false).made us := hmade
    cases rest with
    | nil =>
      simp only [withLog, Rule.logged_eq, hname, hbody, hquiet, List.nil_append, ← hkept, trailing,
        List.append_nil]
    | cons t rest =>
      simp only [withLog, Rule.logged_eq, hname, hbody, hquiet, List.nil_append, ← hkept, trailing]

end Reading

end Zed
