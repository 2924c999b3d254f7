import Zed.Proofs.Grammar.Completeness

/-!
# The courses of a reading

A reading takes one of four courses: the beginning of the program is refused, the tokens end within
it, the tokens end within the body, or the body is read up to its end. `Course` has one constructor
for each, with what the rules made of the tokens and the reading that comes of it, so that a
statement about readings is shown by cases and never by opening `ofTokens`.
-/

set_option autoImplicit false

namespace Zed

namespace Rule

variable {ts rest : List Token} {report : List Diagnostic}

theorem take_eq_ended {α : Type} {accept : Token → Except Expectation α} :
    take accept ts = .ended report ↔ ts = [] ∧ report = [] := by
  cases ts with
  | nil =>
    change Outcome.ended [] = _ ↔ _
    simp [eq_comm]
  | cons t ts =>
    rw [run_take_cons]
    cases accept t <;> simp

/-- A token is refused exactly if it is not accepted, and the refusal is the only report. -/
theorem take_eq_rejected {α : Type} {accept : Token → Except Expectation α} :
    take accept ts = .rejected report rest ↔
      ∃ t us wanted, ts = t :: us ∧ accept t = .error wanted ∧ report = [wanted.blame t] ∧
        rest = ts := by
  cases ts with
  | nil =>
    change Outcome.ended [] = _ ↔ _
    simp
  | cons t ts =>
    rw [run_take_cons]
    cases h : accept t with
    | ok value => simp [h]
    | error wanted => simp [h, eq_comm]

/-- There is nothing to report while one of the first two tokens is missing. -/
theorem header_eq_ended (h : header ts = .ended report) : report = [] := by
  rw [header, run_bind] at h
  cases hk : keyword .PROG ts with
  | done value mid =>
    rw [hk] at h
    exact (take_eq_ended.1 h).2
  | rejected found mid =>
    rw [hk] at h
    cases h
  | ended found =>
    rw [hk] at h
    cases h
    exact (take_eq_ended.1 hk).2
  | exhausted =>
    rw [hk] at h
    cases h

/-- One of the first two tokens is refused with a single diagnostic. -/
theorem header_eq_rejected (h : header ts = .rejected report rest) : ∃ d, report = [d] := by
  rw [header, run_bind] at h
  cases hk : keyword .PROG ts with
  | done value mid =>
    rw [hk] at h
    obtain ⟨t, us, wanted, -, -, hreport, -⟩ := take_eq_rejected.1 h
    exact ⟨_, hreport⟩
  | rejected found mid =>
    rw [hk] at h
    cases h
    obtain ⟨t, us, wanted, -, -, hreport, -⟩ := take_eq_rejected.1 hk
    exact ⟨_, hreport⟩
  | ended found =>
    rw [hk] at h
    cases h
  | exhausted =>
    rw [hk] at h
    cases h

end Rule

namespace Reading

/-- How a reading of the tokens comes about. -/
inductive Course (ts : List Token) : Reading → Prop
  /-- One of the first two tokens is refused. -/
  | refused {d : Diagnostic} {rest : List Token} :
      Rule.header ts = .rejected [d] rest → Course ts ⟨none, "", [d], false⟩
  /-- One of the first two tokens is missing. -/
  | unnamed : Rule.header ts = .ended [] → Course ts ⟨none, "", [], true⟩
  /-- The body has no end. -/
  | unfinished {name : String} {us : List Token} {report : List Diagnostic} :
      Rule.header ts = .done name us →
      Rule.block (us.length + 1) .ENDPROG false us = .ended report →
      Course ts ⟨none, name, report, true⟩
  /-- The body ends before `rest`. -/
  | finished {name : String} {us rest : List Token} {body : Block} :
      Rule.header ts = .done name us →
      Rule.block (us.length + 1) .ENDPROG false us = .done body rest →
      Course ts ⟨some ⟨name, body⟩, name, body.diagnostics ++ trailing rest, false⟩

/-- Every reading takes one of these courses. -/
theorem ofTokens_course (ts : List Token) : Course ts (ofTokens ts) := by
  rw [ofTokens]
  cases hheader : Rule.header ts with
  | rejected report rest =>
    obtain ⟨d, rfl⟩ := Rule.header_eq_rejected hheader
    exact .refused hheader
  | ended report =>
    obtain rfl := Rule.header_eq_ended hheader
    exact .unnamed hheader
  | exhausted => exact absurd hheader (Rule.header_reads.ne_exhausted (Nat.lt_succ_self _))
  | done name us =>
    simp only [ofBody]
    cases hbody : Rule.block (us.length + 1) .ENDPROG false us with
    | rejected report rest => exact absurd hbody Rule.block_ne_rejected
    | ended report => exact .unfinished hheader hbody
    | exhausted =>
      exact absurd hbody ((Rule.block_reads (us.length + 1) .ENDPROG).ne_exhausted
        (Nat.lt_succ_self _))
    | done body rest => exact .finished hheader hbody

/-- The course determines the reading. -/
theorem Course.eq {ts : List Token} {r : Reading} (h : Course ts r) : ofTokens ts = r := by
  cases h with
  | refused hheader => simp only [ofTokens, hheader]
  | unnamed hheader => simp only [ofTokens, hheader]
  | unfinished hheader hbody => simp only [ofTokens, hheader, ofBody, hbody]
  | finished hheader hbody => simp only [ofTokens, hheader, ofBody, hbody]

/-- What the tokens of a program are that was read, with faults or without. -/
theorem recovers_of_program_eq_some {ts : List Token} {p : Program}
    (h : (ofTokens ts).program = some p) :
    ∃ opening title us closing rest, ts = opening :: title :: us ++ closing :: rest ∧
      opening.isKeyword .PROG = true ∧ title.kind = .ident p.name ∧
      Recovers us (.items p.body.statements) p.body.diagnostics ∧
      closing.isKeyword .ENDPROG = true ∧
      (ofTokens ts).diagnostics = p.body.diagnostics ++ trailing rest := by
  generalize hr : ofTokens ts = r at h
  cases hr ▸ ofTokens_course ts with
  | refused => cases h
  | unnamed => cases h
  | unfinished => cases h
  | @finished name us rest body hheader hbody =>
    cases h
    obtain ⟨opening, title, hopening, htitle, rfl⟩ := Rule.header_eq_done.1 hheader
    obtain ⟨us, closing, rfl, hus, hclosing⟩ := Rule.block_recovers hbody
    exact ⟨opening, title, us, closing, rest, rfl, hopening, htitle, hus, hclosing, rfl⟩

/-- No program comes of tokens that ran out. -/
theorem program_eq_none_of_incomplete {ts : List Token} (h : (ofTokens ts).incomplete = true) :
    (ofTokens ts).program = none := by
  generalize hr : ofTokens ts = r at h
  cases hr ▸ ofTokens_course ts with
  | refused => rfl
  | unnamed => rfl
  | unfinished => rfl
  | finished => cases h

/-- A program that is read without a fault is derived. -/
theorem derives_of_diagnostics_eq_nil {ts : List Token} {p : Program}
    (hprogram : (ofTokens ts).program = some p) (hclean : (ofTokens ts).diagnostics = []) :
    Derives ts (.program p) := by
  apply derives_of_ofTokens_eq
  generalize hr : ofTokens ts = r at hprogram hclean
  cases hr ▸ ofTokens_course ts with
  | refused => cases hprogram
  | unnamed => cases hprogram
  | unfinished => cases hprogram
  | finished =>
    cases hprogram
    simpa using hclean

end Reading

end Zed
