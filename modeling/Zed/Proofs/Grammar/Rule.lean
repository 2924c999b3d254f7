import Zed.Grammar.Program

/-!
# Successful readings

What each step of a rule does, and when a rule is done: one equivalence for each way of building
rules. A proof about a rule of the grammar takes its sequence of steps apart, or puts it together,
with these and never opens `Outcome` itself.

A fact about all rules is shown by induction on their steps, like `Rule.remaining_suffix`.
-/

set_option autoImplicit false

namespace Zed

/-- A token is a keyword by its kind alone. -/
theorem Token.isKeyword_iff {t : Token} {word : Keyword} :
    t.isKeyword word = true ↔ t.kind = .keyword word := by
  simp [Token.isKeyword]

/-- A token is a symbol by its kind alone. -/
theorem Token.isSymbol_iff {t : Token} {sign : Symbol} :
    t.isSymbol sign = true ↔ t.kind = .symbol sign := by
  simp [Token.isSymbol]

/-! A token has one kind only. -/

theorem Token.isSymbol_eq_false_of_isKeyword {t : Token} {word : Keyword} {sign : Symbol}
    (h : t.isKeyword word = true) : t.isSymbol sign = false := by
  simp [Token.isSymbol, Token.isKeyword_iff.1 h]

theorem Token.isKeyword_eq_false_of_isSymbol {t : Token} {word : Keyword} {sign : Symbol}
    (h : t.isSymbol sign = true) : t.isKeyword word = false := by
  simp [Token.isKeyword, Token.isSymbol_iff.1 h]

theorem Token.isKeyword_eq_false_of_ne {t : Token} {word other : Keyword}
    (h : t.isKeyword word = true) (hne : word ≠ other) : t.isKeyword other = false := by
  simp [Token.isKeyword, Token.isKeyword_iff.1 h, hne]

theorem Token.isSymbol_eq_false_of_ne {t : Token} {sign other : Symbol}
    (h : t.isSymbol sign = true) (hne : sign ≠ other) : t.isSymbol other = false := by
  simp [Token.isSymbol, Token.isSymbol_iff.1 h, hne]

/-! ## Outcomes -/

namespace Outcome

variable {α β : Type}

/-- The tokens that are left. -/
def remaining : Outcome α → List Token
  | .done _ rest => rest
  | .rejected _ rest => rest
  | .ended _ => []
  | .exhausted => []

/-- Puts a part of a block in front of the rest of it. -/
def prepend (statements : List Statement) (found : List Diagnostic) :
    Outcome Block → Outcome Block
  | .done rest tokens =>
    .done (.mk (statements ++ rest.statements) (found ++ rest.diagnostics)) tokens
  | .rejected report tokens => .rejected (found ++ report) tokens
  | .ended report => .ended (found ++ report)
  | .exhausted => .exhausted

theorem after_eq_done {earlier : List Diagnostic} {outcome : Outcome α} {a : α}
    {rest : List Token} :
    outcome.after earlier = .done a rest ↔ outcome = .done a rest := by
  cases outcome <;> simp [after]

/-- What comes behind an outcome leaves no token that the outcome has not left. -/
theorem remaining_recover_suffix {outcome : Outcome α} {next : α → List Token → Outcome β}
    {again : List Diagnostic → List Token → Outcome β} {ts : List Token}
    (h : outcome.remaining <:+ ts) (hnext : ∀ value rest, (next value rest).remaining <:+ rest)
    (hagain : ∀ report rest, (again report rest).remaining <:+ rest) :
    (outcome.recover next again).remaining <:+ ts := by
  cases outcome with
  | done value rest => exact (hnext value rest).trans h
  | rejected report rest => exact (hagain report rest).trans h
  | ended report => exact List.nil_suffix
  | exhausted => exact List.nil_suffix

end Outcome

namespace Rule

variable {α β : Type} {rule : Rule α} {next : α → Rule β}
variable {ts rest : List Token}

/-! ## What a step does -/

theorem run_pure (a : α) (ts : List Token) : (pure a : Rule α) ts = .done a ts := rfl

theorem run_bind (rule : Rule α) (next : α → Rule β) (ts : List Token) :
    (rule >>= next) ts = (rule ts).recover (fun value => next value) .rejected := rfl

/-- Recovery goes on in both cases, with the value or with the report. -/
theorem run_recover (rule : Rule α) (next : α → Rule β) (again : List Diagnostic → Rule β)
    (ts : List Token) :
    recover rule next again ts
      = (rule ts).recover (fun value => next value) fun report => again report := rfl

theorem run_after (earlier : List Diagnostic) (rule : Rule α) (ts : List Token) :
    after earlier rule ts = (rule ts).after earlier := rfl

theorem run_take_cons (accept : Token → Except Expectation α) (t : Token) (ts : List Token) :
    take accept (t :: ts) = match accept t with
      | .ok value => .done value ts
      | .error wanted => .rejected [wanted.blame t] (t :: ts) := rfl

theorem run_optional_cons (accept : Token → Option α) (t : Token) (ts : List Token) :
    optional accept (t :: ts) = match accept t with
      | some value => .done (some value) ts
      | none => .done none (t :: ts) := rfl

theorem run_prepend (statements : List Statement) (found : List Diagnostic) (rule : Rule Block)
    (ts : List Token) : prepend statements found rule ts = (rule ts).prepend statements found := by
  rw [prepend, run_after, run_bind]
  cases rule ts <;> rfl

/-- No rule puts a token in front of those it is given. -/
theorem remaining_suffix (rule : Rule α) (ts : List Token) : (rule ts).remaining <:+ ts := by
  induction rule generalizing ts with
  | ret value => exact List.suffix_refl ts
  | seq rule next ih ihnext =>
    exact Outcome.remaining_recover_suffix (ih ts) ihnext fun _ => List.suffix_refl
  | spent => exact List.nil_suffix
  | current => cases ts <;> exact List.suffix_refl _
  | take accept =>
    cases ts with
    | nil => exact List.suffix_refl []
    | cons t ts =>
      rw [run_take_cons]
      cases accept t with
      | ok value => exact List.suffix_cons t ts
      | error wanted => exact List.suffix_refl (t :: ts)
  | optional accept =>
    cases ts with
    | nil => exact List.suffix_refl []
    | cons t ts =>
      rw [run_optional_cons]
      cases accept t with
      | some value => exact List.suffix_cons t ts
      | none => exact List.suffix_refl (t :: ts)
  | blame wanted found => exact List.suffix_refl ts
  | reject report => exact List.suffix_refl ts
  | after earlier rule ih =>
    have hrule := ih ts
    rw [run_after]
    cases hr : rule ts <;> rw [hr] at hrule <;> exact hrule
  | recover rule next again ih ihnext ihagain =>
    exact Outcome.remaining_recover_suffix (ih ts) ihnext ihagain

/-! ## Sequencing -/

/-- A sequence is done if both parts are, the second one on what the first one left. -/
theorem bind_eq_done {b : β} :
    (rule >>= next) ts = .done b rest ↔
      ∃ a mid, rule ts = .done a mid ∧ next a mid = .done b rest := by
  rw [run_bind]
  cases rule ts with
  | done a mid =>
    constructor
    · exact fun h => ⟨a, mid, rfl, h⟩
    · rintro ⟨_, _, ⟨⟩, h⟩
      exact h
  | rejected report mid => simp [Outcome.recover]
  | ended report => simp [Outcome.recover]
  | exhausted => simp [Outcome.recover]

theorem pure_eq_done {a b : α} :
    (pure a : Rule α) ts = .done b rest ↔ a = b ∧ ts = rest := by
  rw [run_pure]
  simp

theorem after_eq_done {earlier : List Diagnostic} {a : α} :
    after earlier rule ts = .done a rest ↔ rule ts = .done a rest :=
  Outcome.after_eq_done

/-! ## Single tokens -/

/-- Looking at a token succeeds exactly if there is one. -/
theorem current_eq_done {t : Token} :
    current ts = .done t rest ↔ ts = rest ∧ ∃ us, rest = t :: us := by
  cases ts with
  | nil =>
    refine ⟨nofun, ?_⟩
    rintro ⟨rfl, us, h⟩
    cases h
  | cons u us =>
    change Outcome.done u (u :: us) = _ ↔ _
    rw [Outcome.done.injEq]
    constructor
    · rintro ⟨rfl, rfl⟩
      exact ⟨rfl, us, rfl⟩
    · rintro ⟨rfl, vs, h⟩
      cases h
      exact ⟨rfl, rfl⟩

/-- A token is taken exactly if it is accepted. -/
theorem take_eq_done {accept : Token → Except Expectation α} {a : α} :
    take accept ts = .done a rest ↔ ∃ t, ts = t :: rest ∧ accept t = .ok a := by
  cases ts with
  | nil =>
    refine ⟨nofun, ?_⟩
    rintro ⟨t, h, -⟩
    cases h
  | cons u us =>
    rw [run_take_cons]
    cases h : accept u with
    | ok b =>
      simp only [Outcome.done.injEq, List.cons.injEq]
      constructor
      · rintro ⟨rfl, rfl⟩
        exact ⟨u, ⟨rfl, rfl⟩, h⟩
      · rintro ⟨t, ⟨rfl, rfl⟩, ht⟩
        rw [h] at ht
        cases ht
        exact ⟨rfl, rfl⟩
    | error wanted =>
      simp only [reduceCtorEq, List.cons.injEq, false_iff, not_exists, not_and]
      rintro t ⟨rfl, rfl⟩ ht
      rw [h] at ht
      cases ht

/-- An optional token is read exactly if it is accepted. -/
theorem optional_eq_some {accept : Token → Option α} {a : α} :
    optional accept ts = .done (some a) rest ↔ ∃ t, ts = t :: rest ∧ accept t = some a := by
  cases ts with
  | nil =>
    refine ⟨nofun, ?_⟩
    rintro ⟨t, h, -⟩
    cases h
  | cons u us =>
    rw [run_optional_cons]
    cases h : accept u with
    | some b =>
      simp only [Outcome.done.injEq, Option.some.injEq, List.cons.injEq]
      constructor
      · rintro ⟨rfl, rfl⟩
        exact ⟨u, ⟨rfl, rfl⟩, h⟩
      · rintro ⟨t, ⟨rfl, rfl⟩, ht⟩
        rw [h] at ht
        cases ht
        exact ⟨rfl, rfl⟩
    | none =>
      simp only [Outcome.done.injEq, reduceCtorEq, false_and, List.cons.injEq,
        false_iff, not_exists, not_and]
      rintro t ⟨rfl, rfl⟩ ht
      rw [h] at ht
      cases ht

/-- Nothing is read exactly if there is no token or it is not accepted. -/
theorem optional_eq_none {accept : Token → Option α} :
    optional accept ts = .done none rest ↔
      ts = rest ∧ ∀ t us, ts = t :: us → accept t = none := by
  cases ts with
  | nil =>
    change Outcome.done none [] = _ ↔ _
    simp [eq_comm]
  | cons u us =>
    rw [run_optional_cons]
    cases h : accept u with
    | some b =>
      simp only [Outcome.done.injEq, reduceCtorEq, false_and, false_iff, not_and]
      intro _ hnone
      have := hnone u us rfl
      rw [h] at this
      cases this
    | none =>
      simp only [Outcome.done.injEq, true_and, List.cons.injEq]
      constructor
      · rintro rfl
        refine ⟨rfl, ?_⟩
        rintro t vs ⟨rfl, rfl⟩
        exact h
      · exact fun h => h.1

/-! ## Keywords and symbols -/

/-- The rule for a keyword reads this keyword and nothing else. -/
theorem keyword_eq_done {word : Keyword} {u : Unit} :
    keyword word ts = .done u rest ↔ ∃ t, t.isKeyword word = true ∧ ts = t :: rest := by
  rw [keyword, take_eq_done]
  constructor
  · rintro ⟨t, hts, ht⟩
    by_cases h : t.isKeyword word = true
    · exact ⟨t, h, hts⟩
    · simp [h] at ht
  · rintro ⟨t, ht, hts⟩
    exact ⟨t, hts, by simp [ht]⟩

/-- The rule for a symbol reads this symbol and nothing else. -/
theorem symbol_eq_done {sign : Symbol} {u : Unit} :
    symbol sign ts = .done u rest ↔ ∃ t, t.isSymbol sign = true ∧ ts = t :: rest := by
  rw [symbol, take_eq_done]
  constructor
  · rintro ⟨t, hts, ht⟩
    by_cases h : t.isSymbol sign = true
    · exact ⟨t, h, hts⟩
    · simp [h] at ht
  · rintro ⟨t, ht, hts⟩
    exact ⟨t, hts, by simp [ht]⟩

/-- Reading a token if it passes a test, and saying whether it did. -/
theorem optional_guard_eq_done {test : Token → Bool} {found : Bool} :
    (optional (Option.guard fun t => test t) >>= fun o => (pure o.isSome : Rule Bool)) ts =
        .done found rest ↔
      (found = true ∧ ∃ t, test t = true ∧ ts = t :: rest) ∨
        (found = false ∧ ts = rest ∧ ∀ t us, ts = t :: us → test t = false) := by
  rw [bind_eq_done]
  constructor
  · rintro ⟨o, mid, ho, hp⟩
    rw [pure_eq_done] at hp
    obtain ⟨rfl, rfl⟩ := hp
    cases o with
    | some u =>
      obtain ⟨t, hts, ht⟩ := optional_eq_some.1 ho
      simp only [Option.guard_eq_some_iff] at ht
      exact Or.inl ⟨rfl, t, ht.2, hts⟩
    | none =>
      obtain ⟨hts, hnone⟩ := optional_eq_none.1 ho
      refine Or.inr ⟨rfl, hts, fun t us h => ?_⟩
      simpa using hnone t us h
  · rintro (⟨rfl, t, ht, rfl⟩ | ⟨rfl, rfl, hnone⟩)
    · exact ⟨some t, rest, optional_eq_some.2 ⟨t, rfl, by simp [ht]⟩, pure_eq_done.2 ⟨rfl, rfl⟩⟩
    · refine ⟨none, ts, optional_eq_none.2 ⟨rfl, fun t us h => ?_⟩, pure_eq_done.2 ⟨rfl, rfl⟩⟩
      simpa using hnone t us h

theorem skipKeyword_eq_done {word : Keyword} {found : Bool} :
    skipKeyword word ts = .done found rest ↔
      (found = true ∧ ∃ t, t.isKeyword word = true ∧ ts = t :: rest) ∨
        (found = false ∧ ts = rest ∧ ∀ t us, ts = t :: us → t.isKeyword word = false) :=
  optional_guard_eq_done

theorem skipSymbol_eq_done {sign : Symbol} {found : Bool} :
    skipSymbol sign ts = .done found rest ↔
      (found = true ∧ ∃ t, t.isSymbol sign = true ∧ ts = t :: rest) ∨
        (found = false ∧ ts = rest ∧ ∀ t us, ts = t :: us → t.isSymbol sign = false) :=
  optional_guard_eq_done

/-! ## Blocks -/

/-- One turn of a block, which reads the token `t`. -/
theorem block_cons (fuel : Nat) (close : Keyword) (skipping : Bool) (t : Token) (ts : List Token) :
    block (fuel + 1) close skipping (t :: ts) =
      if t.isKeyword close then .done (.mk [] []) ts
      else if t.isSymbol .colon then block fuel close false ts
      else if skipping && !t.isCloser then block fuel close true ts
      else
        match statement? fuel (block fuel .ENDDO false) t.kind with
        | none => (block fuel close true ts).prepend [] [Expectation.blame .statement t]
        | some rule =>
          match rule ts with
          | .done (s, found) rest => (block fuel close false rest).prepend [s] found
          | .rejected found rest => (block fuel close true rest).prepend [] found
          | .ended found => .ended found
          | .exhausted => .exhausted := by
  have hturn : block (fuel + 1) close skipping (t :: ts)
      = (if t.isKeyword close then return .mk [] []
        else if t.isSymbol .colon then block fuel close false
        else if skipping && !t.isCloser then block fuel close true
        else
          match statement? fuel (block fuel .ENDDO false) t.kind with
          | none => do
            let fault ← blame .statement t
            prepend [] [fault] (block fuel close true)
          | some rule =>
            recover rule
              (fun read => prepend [read.1] read.2 (block fuel close false))
              (fun found => prepend [] found (block fuel close true)) : Rule Block) ts := rfl
  rw [hturn]
  split
  · rfl
  split
  · rfl
  split
  · rfl
  split
  · rw [run_bind]
    exact run_prepend _ _ _ ts
  · next rule _ =>
    rw [run_recover]
    cases rule ts with
    | done value rest => exact run_prepend _ _ _ rest
    | rejected found rest => exact run_prepend _ _ _ rest
    | ended found => rfl
    | exhausted => rfl

end Rule

end Zed
