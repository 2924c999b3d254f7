import Zed.Proofs.Grammar.Rule

/-!
# Reading with a log

A diagnostic is made in two places only: where `take` refuses a token, and where a rule blames one.
Here the steps of a rule are carried out a second time, with a log at hand to which these two write
and which nothing else touches.

The log has no influence on what is read, and what a rule adds to it does not depend on what
is there already (`Rule.logged_eq`).
-/

set_option autoImplicit false

namespace Zed

/-- The diagnostics that are made behind an outcome, by `next` behind a value and by `again` behind
a rejected token. -/
def Outcome.follow {α : Type} (next : α → List Token → List Diagnostic)
    (again : List Diagnostic → List Token → List Diagnostic) : Outcome α → List Diagnostic
  | .done value rest => next value rest
  | .rejected report rest => again report rest
  | .ended _ => []
  | .exhausted => []

namespace Rule

variable {α β : Type}

/-- What a rule makes of a list of tokens, and the log with the diagnostics it made added
at the end. -/
def logged {α : Type} : Rule α → List Token → List Diagnostic → Outcome α × List Diagnostic
  | .ret value, ts, log => (.done value ts, log)
  | .seq rule next, ts, log =>
    match rule.logged ts log with
    | (.done value rest, log) => (next value).logged rest log
    | (.rejected report rest, log) => (.rejected report rest, log)
    | (.ended report, log) => (.ended report, log)
    | (.exhausted, log) => (.exhausted, log)
  | .spent, _, log => (.exhausted, log)
  | .current, [], log => (.ended [], log)
  | .current, t :: rest, log => (.done t (t :: rest), log)
  | .take _, [], log => (.ended [], log)
  | .take accept, t :: rest, log =>
    match accept t with
    | .ok value => (.done value rest, log)
    | .error wanted => (.rejected [wanted.blame t] (t :: rest), log ++ [wanted.blame t])
  | .optional _, [], log => (.done none [], log)
  | .optional accept, t :: rest, log =>
    match accept t with
    | some value => (.done (some value) rest, log)
    | none => (.done none (t :: rest), log)
  | .blame wanted found, ts, log => (.done (wanted.blame found) ts, log ++ [wanted.blame found])
  | .reject report, ts, log => (.rejected report ts, log)
  | .after earlier rule, ts, log =>
    let (outcome, log) := rule.logged ts log
    (outcome.after earlier, log)
  | .recover rule next again, ts, log =>
    match rule.logged ts log with
    | (.done value rest, log) => (next value).logged rest log
    | (.rejected report rest, log) => (again report).logged rest log
    | (.ended report, log) => (.ended report, log)
    | (.exhausted, log) => (.exhausted, log)

/-- The diagnostics that a rule makes, in their order. -/
def made {α : Type} : Rule α → List Token → List Diagnostic
  | .seq rule next, ts =>
    rule.made ts ++ (rule.run ts).follow (fun value => (next value).made) fun _ _ => []
  | .take accept, t :: _ =>
    match accept t with
    | .ok _ => []
    | .error wanted => [wanted.blame t]
  | .blame wanted found, _ => [wanted.blame found]
  | .after _ rule, ts => rule.made ts
  | .recover rule next again, ts =>
    rule.made ts ++
      (rule.run ts).follow (fun value => (next value).made) fun report => (again report).made
  | _, _ => []

/-- A rule reads the same with a log, and adds to it what it makes. By induction on its steps. -/
theorem logged_eq (rule : Rule α) (ts : List Token) (log : List Diagnostic) :
    rule.logged ts log = (rule ts, log ++ rule.made ts) := by
  induction rule generalizing ts log with
  | ret value => simp only [logged, made, run, List.append_nil]
  | seq rule next ih ihnext =>
    simp only [logged, made, run, ih]
    cases rule.run ts <;>
      simp only [Outcome.recover, Outcome.follow, ihnext, List.append_assoc, List.append_nil]
  | spent => simp only [logged, made, run, List.append_nil]
  | current => cases ts <;> simp only [logged, made, run, List.append_nil]
  | take accept =>
    cases ts with
    | nil => simp only [logged, made, run, List.append_nil]
    | cons t ts =>
      simp only [logged, made, run]
      cases accept t <;> simp only [List.append_nil]
  | optional accept =>
    cases ts with
    | nil => simp only [logged, made, run, List.append_nil]
    | cons t ts =>
      simp only [logged, made, run]
      cases accept t <;> simp only [List.append_nil]
  | blame wanted found => simp only [logged, made, run]
  | reject report => simp only [logged, made, run, List.append_nil]
  | after earlier rule ih => simp only [logged, made, run, ih]
  | recover rule next again ih ihnext ihagain =>
    simp only [logged, made, run, ih]
    cases rule.run ts <;>
      simp only [Outcome.recover, Outcome.follow, ihnext, ihagain, List.append_assoc,
        List.append_nil]

end Rule

namespace Reading

/-- Reads a list of tokens as a program, and gives the log too. A token after the end of the program
is blamed like any other. -/
def withLog (tokens : List Token) : Reading × List Diagnostic :=
  match Rule.header.logged tokens [] with
  | (.rejected report _, log) => (⟨none, "", report, false⟩, log)
  | (.ended report, log) => (⟨none, "", report, true⟩, log)
  | (.exhausted, log) => (⟨none, "", [], true⟩, log)
  | (.done name rest, log) =>
    match (Rule.block (rest.length + 1) .ENDPROG false).logged rest log with
    | (.rejected report _, log) => (⟨none, name, report, true⟩, log)
    | (.ended report, log) => (⟨none, name, report, true⟩, log)
    | (.exhausted, log) => (⟨none, name, [], true⟩, log)
    | (.done body [], log) => (⟨some ⟨name, body⟩, name, body.diagnostics, false⟩, log)
    | (.done body (t :: _), log) =>
      let d := Expectation.blame .endOfProgram t
      (⟨some ⟨name, body⟩, name, body.diagnostics ++ [d], false⟩, log ++ [d])

end Reading

end Zed
