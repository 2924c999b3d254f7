import Zed.Proofs.Grammar.Logged

/-!
# What a rule reads

A judgement on rules, with one lemma for each way to put rules together. `rule.Reads fuel holds`
says of every list of tokens:

* if the rule is done, then the tokens it used, those it left, its value and the diagnostics it made
  stand in the relation `holds`;
* if it fails, its report consists of the diagnostics it made, and if it rejects a
  token, there is one;
* its fuel is spent only if there are as many tokens as `fuel` or more.

Most rules make no diagnostic when they are done (`Quiet`). Those that read a block hand on what
the block keeps (`Carried`).
-/

set_option autoImplicit false

namespace Zed

variable {α β : Type}

/-- What an outcome says about the tokens `ts` and the diagnostics `made` on the way to it. -/
def Outcome.Fits (fuel : Nat) (holds : List Token → List Token → α → List Diagnostic → Prop)
    (ts : List Token) (made : List Diagnostic) : Outcome α → Prop
  | .done value rest => ∃ used, ts = used ++ rest ∧ holds used rest value made
  | .rejected report _ => report = made ∧ report ≠ []
  | .ended report => report = made
  | .exhausted => fuel ≤ ts.length

namespace Outcome.Fits

variable {fuel : Nat} {holds : List Token → List Token → α → List Diagnostic → Prop}
  {ts : List Token} {made : List Diagnostic} {outcome : Outcome α}

/-- Only what is done has to be looked at to say something else of it. -/
theorem imp {other : List Token → List Token → α → List Diagnostic → Prop}
    (h : outcome.Fits fuel holds ts made)
    (hdone : ∀ used rest value, outcome = .done value rest → ts = used ++ rest →
      holds used rest value made → ∃ used, ts = used ++ rest ∧ other used rest value made) :
    outcome.Fits fuel other ts made := by
  cases outcome with
  | done value rest =>
    obtain ⟨used, hts, hholds⟩ := h
    exact hdone used rest value rfl hts hholds
  | rejected report rest => exact h
  | ended report => exact h
  | exhausted => exact h

/-- What comes behind an outcome has to fit where the outcome is done or rejects a token. Where
nothing comes behind it, it fits as it is. -/
theorem recover {final : List Token → List Token → β → List Diagnostic → Prop}
    {next : α → List Token → Outcome β} {again : List Diagnostic → List Token → Outcome β}
    {nextMade : α → List Token → List Diagnostic}
    {againMade : List Diagnostic → List Token → List Diagnostic}
    (h : outcome.Fits fuel holds ts made)
    (hnext : ∀ used value mid, ts = used ++ mid → holds used mid value made →
      (next value mid).Fits fuel final ts (made ++ nextMade value mid))
    (hagain : ∀ report mid, outcome = .rejected report mid → report = made → report ≠ [] →
      (again report mid).Fits fuel final ts (made ++ againMade report mid)) :
    (outcome.recover next again).Fits fuel final ts
      (made ++ outcome.follow nextMade againMade) := by
  cases outcome with
  | done value mid =>
    obtain ⟨used, hts, hholds⟩ := h
    exact hnext used value mid hts hholds
  | rejected report mid => exact hagain report mid rfl h.1 h.2
  | ended report =>
    rw [Outcome.follow, List.append_nil]
    exact h
  | exhausted => exact h

end Outcome.Fits

namespace Rule

/-- Every outcome of the rule fits, whatever the tokens are. -/
def Reads (fuel : Nat) (rule : Rule α)
    (holds : List Token → List Token → α → List Diagnostic → Prop) : Prop :=
  ∀ ts, (rule ts).Fits fuel holds ts (rule.made ts)

/-- The value keeps the diagnostics `kept`, and it stands in the relation `holds` to its tokens. -/
def Carried (kept : α → List Diagnostic) (holds : List Token → α → Prop) (used _ : List Token)
    (value : α) (made : List Diagnostic) : Prop :=
  made = kept value ∧ holds used value

/-- There is no diagnostic. -/
def Quiet (holds : List Token → α → Prop) :
    List Token → List Token → α → List Diagnostic → Prop :=
  Carried (fun _ => []) holds

/-- A sequence makes the diagnostics of its parts, one after the other. After a rejection there is
no second part. -/
theorem made_bind (rule : Rule α) (next : α → Rule β) (ts : List Token) :
    (rule >>= next).made ts
      = rule.made ts ++ (rule ts).follow (fun value => (next value).made) fun _ _ => [] := rfl

/-- Recovery goes on after a rejection too, so the diagnostics of both parts are made. -/
theorem made_recover (rule : Rule α) (next : α → Rule β) (again : List Diagnostic → Rule β)
    (ts : List Token) :
    (recover rule next again).made ts
      = rule.made ts ++
        (rule ts).follow (fun value => (next value).made) fun report => (again report).made := rfl

/-- Only a refusal makes a diagnostic. -/
theorem made_take_cons (accept : Token → Except Expectation α) (t : Token) (ts : List Token) :
    (take accept).made (t :: ts) = match accept t with
      | .ok _ => []
      | .error wanted => [wanted.blame t] := rfl

theorem made_prepend (statements : List Statement) (found : List Diagnostic) (rule : Rule Block)
    (ts : List Token) : (prepend statements found rule).made ts = rule.made ts := by
  have hprepend : (prepend statements found rule).made ts
      = rule.made ts ++ (rule ts).follow (fun _ _ => []) fun _ _ => [] := rfl
  rw [hprepend]
  cases rule ts <;> exact List.append_nil _

variable {fuel : Nat} {rule : Rule α} {next : α → Rule β}
  {holds : List Token → List Token → α → List Diagnostic → Prop}
  {final : List Token → List Token → β → List Diagnostic → Prop}

namespace Reads

/-! ## What is known of an outcome -/

variable {ts rest : List Token} {report : List Diagnostic}

/-- Of a rule that is done we know what it has read. -/
theorem done {value : α} (h : rule.Reads fuel holds) (hr : rule ts = .done value rest) :
    ∃ used, ts = used ++ rest ∧ holds used rest value (rule.made ts) := by
  have hrule := h ts
  rw [hr] at hrule
  exact hrule

/-- A rule that rejects reports all it has made, and at least one diagnostic. -/
theorem rejected (h : rule.Reads fuel holds) (hr : rule ts = .rejected report rest) :
    report = rule.made ts ∧ report ≠ [] := by
  have hrule := h ts
  rw [hr] at hrule
  exact hrule

/-- A rule that meets the end of the tokens reports all it has made. -/
theorem ended (h : rule.Reads fuel holds) (hr : rule ts = .ended report) :
    report = rule.made ts := by
  have hrule := h ts
  rw [hr] at hrule
  exact hrule

/-- The fuel is not spent where there is a unit of it for each token and one more. -/
theorem ne_exhausted (h : rule.Reads fuel holds) (hlt : ts.length < fuel) :
    rule ts ≠ .exhausted := by
  intro hr
  have hrule := h ts
  rw [hr] at hrule
  exact Nat.not_le_of_lt hlt hrule

/-! ## Ways to put rules together -/

/-- What a rule reads may be said in weaker terms. -/
theorem imp {other : List Token → List Token → α → List Diagnostic → Prop}
    (h : rule.Reads fuel holds)
    (himp : ∀ used rest value made, holds used rest value made → other used rest value made) :
    rule.Reads fuel other := by
  intro ts
  refine (h ts).imp ?_
  intro used rest value _ hts hholds
  exact ⟨used, hts, himp used rest value _ hholds⟩

/-- A rule that lasts for some tokens lasts for fewer. -/
theorem mono {less : Nat} (h : rule.Reads fuel holds) (hle : less ≤ fuel) :
    rule.Reads less holds := by
  intro ts
  have hrule := h ts
  cases hr : rule ts with
  | exhausted =>
    rw [hr] at hrule
    exact Nat.le_trans hle hrule
  | _ =>
    rw [hr] at hrule
    exact hrule

theorem pure {value : α} (h : ∀ rest, holds [] rest value []) :
    (Pure.pure value : Rule α).Reads fuel holds :=
  fun ts => ⟨[], rfl, h ts⟩

/-- A sequence fits if its second part does, with the diagnostics of the first part in front. A
token that the first part rejects ends the sequence. -/
theorem bind_of_fits (h : rule.Reads fuel holds)
    (hnext : ∀ used mid value made, holds used mid value made →
      (next value mid).Fits fuel final (used ++ mid) (made ++ (next value).made mid)) :
    (rule >>= next).Reads fuel final := by
  intro ts
  refine (h ts).recover ?_ ?_
  · rintro used value mid rfl hholds
    exact hnext used mid value _ hholds
  · intro report mid _ hmade hne
    rw [List.append_nil]
    exact ⟨hmade, hne⟩

/-- A value that is made of another one keeps the same diagnostics. -/
theorem map {f : α → β} (h : rule.Reads fuel holds)
    (himp : ∀ used rest value made, holds used rest value made → final used rest (f value) made) :
    (rule >>= fun value => Pure.pure (f value)).Reads fuel final := by
  refine h.bind_of_fits ?_
  intro used rest value made hholds
  refine ⟨used, rfl, ?_⟩
  exact (List.append_nil made).symm ▸ himp used rest value made hholds

/-- A first rule that makes no diagnostic when it is done leaves it to the second one to report. -/
theorem bind {first : List Token → α → Prop} (h : rule.Reads fuel (Quiet first))
    (hnext : ∀ used value, first used value →
      (next value).Reads (fuel - used.length) fun more rest b made =>
        final (used ++ more) rest b made) :
    (rule >>= next).Reads fuel final := by
  refine h.bind_of_fits ?_
  rintro used mid value made ⟨rfl, hfirst⟩
  have hrest := hnext used value hfirst mid
  cases hn : next value mid with
  | done b rest =>
    rw [hn] at hrest
    obtain ⟨more, rfl, hfinal⟩ := hrest
    exact ⟨used ++ more, (List.append_assoc used more rest).symm, hfinal⟩
  | rejected report rest =>
    rw [hn] at hrest
    exact hrest
  | ended report =>
    rw [hn] at hrest
    exact hrest
  | exhausted =>
    rw [hn] at hrest
    -- the first rule has used tokens, and each unit of fuel that is missing is one of them
    have hle : fuel - used.length ≤ mid.length := hrest
    show fuel ≤ (used ++ mid).length
    rw [List.length_append]
    omega

/-- What the outcome of a second rule says together with what the first one kept. -/
theorem fits_after {used mid : List Token} {kept made : List Diagnostic} {outcome : Outcome β}
    (h : outcome.Fits fuel (fun more rest b made => mid = more ++ rest →
      final (used ++ more) rest b (kept ++ made)) mid made) :
    (outcome.after kept).Fits fuel final (used ++ mid) (kept ++ made) := by
  cases outcome with
  | done b rest =>
    obtain ⟨more, rfl, hfinal⟩ := h
    exact ⟨used ++ more, (List.append_assoc used more rest).symm, hfinal rfl⟩
  | rejected report rest =>
    obtain ⟨rfl, hne⟩ := h
    exact ⟨rfl, List.append_ne_nil_of_right_ne_nil kept hne⟩
  | ended report => exact congrArg (kept ++ ·) h
  | exhausted =>
    have hle : fuel ≤ mid.length := h
    show fuel ≤ (used ++ mid).length
    rw [List.length_append]
    omega

/-- What the first rule kept comes first in the report of the second one. -/
theorem bind_after {kept : α → List Diagnostic} {first : List Token → α → Prop}
    (h : rule.Reads fuel (Carried kept first))
    (hnext : ∀ used value, first used value →
      (next value).Reads fuel fun more rest b made =>
        final (used ++ more) rest b (kept value ++ made)) :
    (rule >>= fun value => after (kept value) (next value)).Reads fuel final := by
  refine h.bind_of_fits ?_
  rintro used mid value made ⟨rfl, hfirst⟩
  refine fits_after ((hnext used value hfirst).imp ?_ mid)
  exact fun _ _ _ _ hfinal _ => hfinal

/-- The same with a rule for the case that the first one rejects a token. Here the second rule may
be told which tokens were left to it. -/
theorem recover_after {kept : α → List Diagnostic} {again : List Diagnostic → Rule β}
    (h : rule.Reads fuel fun used rest value made =>
      made = kept value ∧ holds used rest value made)
    (hnext : ∀ used mid value, holds used mid value (kept value) →
      (next value).Reads fuel fun more rest b made => mid = more ++ rest →
        final (used ++ more) rest b (kept value ++ made))
    (hagain : ∀ used report, report ≠ [] →
      (again report).Reads fuel
        fun more rest b made => final (used ++ more) rest b (report ++ made)) :
    (recover rule (fun value => after (kept value) (next value))
      fun report => after report (again report)).Reads fuel final := by
  intro ts
  have hsuffix := remaining_suffix rule ts
  refine (h ts).recover ?_ ?_
  · rintro used value mid rfl ⟨hmade, hholds⟩
    rw [hmade] at hholds ⊢
    exact fits_after (hnext used mid value hholds mid)
  · intro report mid hr hmade hne
    -- `holds` says nothing of a rejection, so what was used is found from what is left
    rw [hr] at hsuffix
    obtain ⟨used, rfl⟩ : ∃ used, used ++ mid = ts := hsuffix
    rw [← hmade]
    refine fits_after ((hagain used report hne).imp ?_ mid)
    exact fun _ _ _ _ hfinal _ => hfinal

/-! ## Single steps -/

theorem spent : (spent : Rule α).Reads 0 holds :=
  fun ts => Nat.zero_le ts.length

/-- A rule that takes a token reads this token. -/
theorem take (accept : Token → Except Expectation α) :
    (take accept).Reads fuel (Quiet fun used a => ∃ t, used = [t] ∧ accept t = .ok a) := by
  intro ts
  cases ts with
  | nil => exact rfl
  | cons t ts =>
    rw [run_take_cons, made_take_cons]
    cases h : accept t with
    | ok value => exact ⟨[t], rfl, rfl, t, rfl, h⟩
    | error wanted => exact ⟨rfl, List.cons_ne_nil _ _⟩

/-- Looking at the next token reads nothing. -/
theorem current : current.Reads fuel (Quiet fun used _ => used = []) := by
  intro ts
  cases ts with
  | nil => exact rfl
  | cons t ts => exact ⟨[], rfl, rfl, rfl⟩

/-- A rule that looks at a token and leaves it to the next one. -/
theorem current_bind {next : Token → Rule β}
    (h : ∀ t ts, (next t (t :: ts)).Fits fuel final (t :: ts) ((next t).made (t :: ts))) :
    (Rule.current >>= next).Reads fuel final := by
  intro ts
  cases ts with
  | nil => exact rfl
  | cons t ts => exact h t ts

/-- An optional token is read if it is accepted, and stays otherwise. -/
theorem optional (accept : Token → Option α) :
    (optional accept).Reads fuel (Quiet fun used found =>
      (∃ t a, used = [t] ∧ accept t = some a ∧ found = some a) ∨ used = [] ∧ found = none) := by
  intro ts
  cases ts with
  | nil => exact ⟨[], rfl, rfl, .inr ⟨rfl, rfl⟩⟩
  | cons t ts =>
    have hquiet : (Rule.optional accept).made (t :: ts) = [] := rfl
    rw [run_optional_cons, hquiet]
    cases h : accept t with
    | some a => exact ⟨[t], rfl, rfl, .inl ⟨t, a, rfl, h, rfl⟩⟩
    | none => exact ⟨[], rfl, rfl, .inr ⟨rfl, rfl⟩⟩

/-- Blaming a token reads nothing, and makes one diagnostic. -/
theorem blame (wanted : Expectation) (t : Token) :
    (blame wanted t).Reads fuel (Carried (fun d => [d]) fun used _ => used = []) :=
  fun _ => ⟨[], rfl, rfl, rfl⟩

/-- A token that was read is blamed and rejected. -/
theorem fault (wanted : Expectation) (t : Token) :
    (do let fault ← Rule.blame wanted t; reject [fault] : Rule α).Reads fuel holds :=
  fun _ => ⟨rfl, List.cons_ne_nil _ []⟩

/-- A relation between the tokens and the value, where it is known what the rule is done with. -/
theorem of_eq_done {first other : List Token → α → Prop} (h : rule.Reads fuel (Quiet first))
    (hdone : ∀ {ts a rest}, rule ts = .done a rest → ∃ used, ts = used ++ rest ∧ other used a) :
    rule.Reads fuel (Quiet other) := by
  intro ts
  refine (h ts).imp ?_
  rintro - rest value hr - ⟨hmade, -⟩
  obtain ⟨used, hts, hother⟩ := hdone hr
  exact ⟨used, hts, hmade, hother⟩

end Reads

/-- Reading a token if it passes a test, and saying whether it did. -/
theorem guard_reads (test : Token → Bool) :
    (optional (Option.guard fun t => test t) >>=
      fun found => (Pure.pure found.isSome : Rule Bool)).Reads
      fuel (Quiet fun used found =>
        (found = true ∧ ∃ t, used = [t] ∧ test t = true) ∨ found = false ∧ used = []) := by
  apply (Reads.optional _).bind
  rintro used found (⟨t, a, rfl, ht, rfl⟩ | ⟨rfl, rfl⟩)
  · refine .pure fun rest => ⟨rfl, .inl ⟨rfl, t, rfl, ?_⟩⟩
    exact (Option.guard_eq_some_iff.1 ht).2
  · exact .pure fun rest => ⟨rfl, .inr ⟨rfl, rfl⟩⟩

theorem skipKeyword_reads (word : Keyword) :
    (skipKeyword word).Reads fuel (Quiet fun used found =>
      (found = true ∧ ∃ t, used = [t] ∧ t.isKeyword word = true) ∨ found = false ∧ used = []) :=
  guard_reads _

theorem skipSymbol_reads (sign : Symbol) :
    (skipSymbol sign).Reads fuel (Quiet fun used found =>
      (found = true ∧ ∃ t, used = [t] ∧ t.isSymbol sign = true) ∨ found = false ∧ used = []) :=
  guard_reads _

end Rule

end Zed
