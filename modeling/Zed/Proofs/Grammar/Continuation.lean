import Zed.Proofs.Grammar.Congruence

/-!
# Reading the same tokens, and more behind them

`Continues v f rule full` compares two runs. The first one is of `rule` on tokens `ts`. The second
one is of `full` on tokens that look like `ts` and further tokens `us` behind them, in the view `v`.
If the first run is done or rejects a token, so does the second one, with a value or a report that
looks alike, and it leaves what looks like the rest of `ts` with `us` behind it. If the tokens run
out in the first run, the second one has made what looks like the same diagnostics on the way, and
perhaps more; and without further tokens they run out there as well. Nothing is said of a run that
spends its fuel except that its diagnostics come first.

The relation is kept by every way to put rules together (`continues_recovering`), so it holds of
blocks, where `full` may have more fuel. Three things are read off it: that reading is online, that
more fuel changes nothing, and that only the kinds of the tokens count.
-/

set_option autoImplicit false

namespace Zed

variable {α β γ δ τ κ : Type}

/-- What becomes of an outcome, and of the diagnostics made on the way to it, where the
tokens `us` follow. -/
inductive Outcome.Continues (v : View τ κ) (f : α → β) (us : List Token) :
    Outcome α → List Diagnostic → Outcome α → List Diagnostic → Prop
  | done {a b : α} {rest last : List Token} {made more : List Diagnostic} :
      f a = f b → v.Sees (rest ++ us) last → v.reports made = v.reports more →
      Continues v f us (.done a rest) made (.done b last) more
  | rejected {ds es : List Diagnostic} {rest last : List Token} {made more : List Diagnostic} :
      v.reports ds = v.reports es → v.Sees (rest ++ us) last → v.reports made = v.reports more →
      Continues v f us (.rejected ds rest) made (.rejected es last) more
  | ended {ds : List Diagnostic} {other : Outcome α} {made more : List Diagnostic} :
      v.reports made <+: v.reports more →
      (us = [] → ∃ es, other = .ended es ∧ v.reports ds = v.reports es) →
      Continues v f us (.ended ds) made other more
  | exhausted {other : Outcome α} {made more : List Diagnostic} :
      v.reports made <+: v.reports more → Continues v f us .exhausted made other more

/-- Whatever tokens follow, the second rule goes on where the first one stopped. -/
def Rule.Continues (v : View τ κ) (f : α → β) (rule full : Rule α) : Prop :=
  ∀ ts us vs, v.Sees (ts ++ us) vs →
    (rule ts).Continues v f us (rule.made ts) (full vs) (full.made vs)

variable {v : View τ κ} {f : α → β} {g : γ → δ} {us : List Token}

/-! ## Views of several tokens or diagnostics -/

theorem View.sees_nil {vs : List Token} (h : v.Sees [] vs) : vs = [] :=
  List.map_eq_nil_iff.1 (Eq.symm h)

/-- What looks like a list of tokens starts with what looks like its first one. -/
theorem View.Sees.cons {t : Token} {ts vs : List Token} (h : v.Sees (t :: ts) vs) :
    ∃ u us, vs = u :: us ∧ v.token t = v.token u ∧ v.Sees ts us := by
  obtain ⟨u, us, hvs, htoken, hrest⟩ := List.map_eq_cons_iff.1 (Eq.symm h)
  exact ⟨u, us, hvs, htoken.symm, hrest.symm⟩

/-- Reports are still a beginning when more is reported behind them. -/
theorem View.prefix_reports_append {made more : List Diagnostic} (es : List Diagnostic)
    (h : v.reports made <+: v.reports more) : v.reports made <+: v.reports (more ++ es) := by
  rw [reports, reports, List.map_append]
  exact h.trans (List.prefix_append _ _)

namespace Outcome.Continues

/-- Diagnostics that were made earlier come in front. -/
theorem append {o p : Outcome α} {made more ds es : List Diagnostic}
    (hds : v.reports ds = v.reports es) (h : o.Continues v f us made p more) :
    o.Continues v f us (ds ++ made) p (es ++ more) := by
  have hfront : v.reports made <+: v.reports more →
      v.reports (ds ++ made) <+: v.reports (es ++ more) := by
    intro hmade
    simp only [View.reports, List.map_append] at hds hmade ⊢
    rw [hds]
    exact (List.prefix_append_right_inj _).2 hmade
  cases h with
  | done hvalue hrest hmade => exact .done hvalue hrest (View.reports_append hds hmade)
  | rejected hreport hrest hmade => exact .rejected hreport hrest (View.reports_append hds hmade)
  | ended hmade hend => exact .ended (hfront hmade) hend
  | exhausted hmade => exact .exhausted (hfront hmade)

/-- What comes behind an outcome continues what comes behind the other. If the first run is over,
the second one only adds diagnostics. -/
theorem recover {o p : Outcome α} {made more : List Diagnostic}
    {next last : α → List Token → Outcome γ} {nextMade lastMade : α → List Token → List Diagnostic}
    {again lastAgain : List Diagnostic → List Token → Outcome γ}
    {againMade lastAgainMade : List Diagnostic → List Token → List Diagnostic}
    (h : o.Continues v f us made p more)
    (hnext : ∀ a b ts vs, f a = f b → v.Sees (ts ++ us) vs →
      (next a ts).Continues v g us (nextMade a ts) (last b vs) (lastMade b vs))
    (hagain : ∀ ds es ts vs, v.reports ds = v.reports es → v.Sees (ts ++ us) vs →
      (again ds ts).Continues v g us (againMade ds ts) (lastAgain es vs) (lastAgainMade es vs)) :
    (o.recover next again).Continues v g us (made ++ o.follow nextMade againMade)
      (p.recover last lastAgain) (more ++ p.follow lastMade lastAgainMade) := by
  cases h with
  | done hvalue hrest hmade => exact (hnext _ _ _ _ hvalue hrest).append hmade
  | rejected hreport hrest hmade => exact (hagain _ _ _ _ hreport hrest).append hmade
  | ended hmade hend =>
    -- The first run is over. The second one may go on, and reports more only behind.
    refine .ended ?_ fun hus => ?_
    · rw [Outcome.follow, List.append_nil]
      exact View.prefix_reports_append _ hmade
    · obtain ⟨es, rfl, hreport⟩ := hend hus
      exact ⟨es, rfl, hreport⟩
  | exhausted hmade =>
    refine .exhausted ?_
    rw [Outcome.follow, List.append_nil]
    exact View.prefix_reports_append _ hmade

/-- Diagnostics of an earlier part that look alike may join a rejection on both sides. -/
theorem after {o p : Outcome α} {made more ds es : List Diagnostic}
    (hds : v.reports ds = v.reports es) (h : o.Continues v f us made p more) :
    (o.after ds).Continues v f us made (p.after es) more := by
  cases h with
  | done hvalue hrest hmade => exact .done hvalue hrest hmade
  | rejected hreport hrest hmade => exact .rejected (View.reports_append hds hreport) hrest hmade
  | ended hmade hend =>
    refine .ended hmade fun hus => ?_
    obtain ⟨es, rfl, hreport⟩ := hend hus
    exact ⟨_, rfl, View.reports_append hds hreport⟩
  | exhausted hmade => exact .exhausted hmade

end Outcome.Continues

namespace Rule.Continues

/-! ## Ways to put rules together -/

theorem pure {a b : α} (h : f a = f b) : Continues v f (Pure.pure a) (Pure.pure b) :=
  fun _ _ _ hsees => .done h hsees rfl

/-- What follows a rule that has not been cut short follows the longer one too. -/
theorem bind {rule full : Rule α} {next last : α → Rule γ} (h : Continues v f rule full)
    (hnext : ∀ a b, f a = f b → Continues v g (next a) (last b)) :
    Continues v g (rule >>= next) (full >>= last) := by
  intro ts us vs hsees
  refine (h ts us vs hsees).recover ?_ ?_
  · exact fun a b rest rest' hvalue hrest => hnext a b hvalue rest us rest' hrest
  · exact fun ds es rest rest' hreport hrest => .rejected hreport hrest rfl

/-- Recovery takes the same way on both sides, unless the first rule has met the end
of its tokens. -/
theorem recover {rule full : Rule α} {next last : α → Rule γ}
    {again lastAgain : List Diagnostic → Rule γ} (h : Continues v f rule full)
    (hnext : ∀ a b, f a = f b → Continues v g (next a) (last b))
    (hagain : ∀ ds es, v.reports ds = v.reports es → Continues v g (again ds) (lastAgain es)) :
    Continues v g (.recover rule next again) (.recover full last lastAgain) := by
  intro ts us vs hsees
  refine (h ts us vs hsees).recover ?_ ?_
  · exact fun a b rest rest' hvalue hrest => hnext a b hvalue rest us rest' hrest
  · exact fun ds es rest rest' hreport hrest => hagain ds es hreport rest us rest' hrest

/-! ## Primitives -/

/-- The end of the tokens, where no diagnostic was made. -/
theorem ended_nil {rule full : Rule α} {vs : List Token} (hsees : v.Sees us vs)
    (hend : full [] = .ended []) (hrule : rule [] = .ended []) (hmade : rule.made [] = []) :
    (rule []).Continues v f us (rule.made []) (full vs) (full.made vs) := by
  rw [hrule, hmade]
  refine .ended List.nil_prefix fun hus => ?_
  subst hus
  rw [View.sees_nil hsees]
  exact ⟨[], hend, rfl⟩

theorem spent {full : Rule α} : Continues v f .spent full :=
  fun _ _ _ _ => .exhausted List.nil_prefix

theorem current : Continues v v.token .current .current := by
  intro ts us vs hsees
  cases ts with
  | nil => exact ended_nil hsees rfl rfl rfl
  | cons t ts =>
    obtain ⟨u, vs, rfl, htoken, -⟩ := View.Sees.cons hsees
    exact .done htoken hsees rfl

/-- A token that looks the same gets the same answer. -/
theorem take {accept : Token → Except Expectation α}
    (h : ∀ t u, v.token t = v.token u → SameAnswer f (accept t) (accept u)) :
    Continues v f (.take accept) (.take accept) := by
  intro ts us vs hsees
  cases ts with
  | nil => exact ended_nil hsees rfl rfl rfl
  | cons t ts =>
    obtain ⟨u, vs, rfl, htoken, hrest⟩ := View.Sees.cons hsees
    have hsame := h t u htoken
    rw [run_take_cons, made_take_cons, run_take_cons, made_take_cons]
    generalize accept t = x, accept u = y at hsame
    cases hsame with
    | ok hvalue => exact .done hvalue hrest rfl
    | error wanted =>
      have hblame : v.reports [wanted.blame t] = v.reports [wanted.blame u] :=
        congrArg (fun seen => [seen]) (v.see_eq htoken wanted)
      exact .rejected hblame hsees hblame

/-- The same is expected of a token that looks the same. -/
theorem blame {t u : Token} (wanted : Expectation) (htoken : v.token t = v.token u) :
    Continues v v.see (.blame wanted t) (.blame wanted u) := by
  intro ts us vs hsees
  have hblame := v.see_eq htoken wanted
  exact .done hblame hsees (congrArg (fun seen => [seen]) hblame)

/-- A token that is not the last one is seen by both rules. Where there is none, the first rule ends
without having made a diagnostic. -/
theorem ahead {no : α} {rule : Rule α} {next last : α → Rule γ} (h : Lookahead v f no rule)
    (hend : next no [] = .ended [] ∨ next no [] = .exhausted) (hmade : (next no).made [] = [])
    (hnext : ∀ a b, f a = f b → Continues v g (next a) (last b)) :
    Continues v g (rule >>= next) (rule >>= last) := by
  intro ts us vs hsees
  cases ts with
  | nil =>
    -- The lookahead says no here, though the second rule may still find the token it looks for. So
    -- the first rule must not get anywhere: what follows the lookahead finds no token either.
    have hnil : ∀ next : α → Rule γ, (rule >>= next) [] = next no [] := by
      intro next
      rw [run_bind, h.nil]
      rfl
    have hquiet : (rule >>= next).made [] = [] := by
      rw [made_bind, h.quiet, h.nil]
      exact hmade
    rcases hend with hend | hspent
    · have hlast : last no [] = .ended [] := by
        have hsame := hnext no no rfl [] [] [] rfl
        rw [hend] at hsame
        cases hsame with
        | ended _ hended =>
          obtain ⟨es, hes, hreport⟩ := hended rfl
          rw [hes, List.map_eq_nil_iff.1 (Eq.symm hreport)]
      exact ended_nil hsees ((hnil last).trans hlast) ((hnil next).trans hend) hquiet
    · rw [hnil, hspent, hquiet]
      exact .exhausted List.nil_prefix
  | cons t ts =>
    obtain ⟨u, vs, rfl, htoken, hrest⟩ := View.Sees.cons hsees
    obtain ⟨a, b, hvalue, hread | hleft⟩ := h.cons htoken
    · obtain ⟨hrule, hfull⟩ := hread ts vs
      rw [run_bind, made_bind, run_bind, made_bind, h.quiet, h.quiet, hrule, hfull]
      exact hnext a b hvalue ts us vs hrest
    · obtain ⟨hrule, hfull⟩ := hleft ts vs
      rw [run_bind, made_bind, run_bind, made_bind, h.quiet, h.quiet, hrule, hfull]
      exact hnext a b hvalue (t :: ts) us (u :: vs) hsees

/-- The step of a loop is rejected after it was read, so no token is needed after it for that. -/
theorem step : Continues v id Rule.step Rule.step := by
  have hnumber : Continues v id Rule.number Rule.number := by
    apply take
    intro t u htoken
    apply SameAnswer.of_eq
    rw [v.kind_eq htoken]
  apply current.bind
  intro t u htoken
  apply hnumber.bind
  intro size other hsize
  obtain rfl : size = other := hsize
  cases size.isZero with
  | true =>
    apply (blame .nonzeroStep htoken).bind
    intro d e hfault ts us vs hsees
    exact .rejected (congrArg (fun seen => [seen]) hfault) hsees rfl
  | false => exact .pure rfl

end Rule.Continues

/-- Every way to put rules together keeps the relation. -/
theorem Rule.continues_recovering (v : View τ κ) : Recovering v (Rule.Continues v) where
  pure := Rule.Continues.pure
  bind := Rule.Continues.bind
  spent := Rule.Continues.spent
  current := Rule.Continues.current
  take := Rule.Continues.take
  ahead := Rule.Continues.ahead
  step := Rule.Continues.step
  after hds h := fun ts us vs hsees => (h ts us vs hsees).after hds
  blame := Rule.Continues.blame
  recover := Rule.Continues.recover

/-! ## The tokens themselves -/

/-- Everything counts. -/
def View.exact : View Token Diagnostic where
  token := id
  rename := id
  kept := id
  see := id
  kind_eq h := congrArg Token.kind h
  rename_eq h name := congrArg (fun t : Token => Variable.mk name t.position) h
  see_eq h wanted := congrArg wanted.blame h
  kept_eq h := by rwa [List.map_id, List.map_id] at h

/-- Tokens look alike in the exact view if they are equal. -/
theorem View.exact_sees {ts us : List Token} : View.exact.Sees ts us ↔ ts = us := by
  simp only [View.Sees, View.exact, List.map_id]

theorem View.exact_reports (ds : List Diagnostic) : View.exact.reports ds = ds :=
  List.map_id ds

/-- A function that changes nothing takes different values to different ones. -/
theorem injective_of_eq_self {f : α → α} (h : ∀ a, f a = a) : Function.Injective f := by
  rw [funext h]
  exact Function.injective_id

/-- In the exact view everything counts of a value and its reports. -/
theorem View.exact_reported_injective {f : α → α} (h : ∀ a, f a = a) :
    Function.Injective (View.exact.reported f) := by
  apply injective_of_eq_self
  intro found
  exact Prod.ext (h found.1) (View.exact_reports found.2)

/-- In the exact view everything counts of a block. -/
theorem View.exact_block_injective : Function.Injective View.exact.block := by
  intro b b' h
  have hmap : b.map id id = b'.map id id := congrArg Prod.fst h
  rwa [Block.map_id, Block.map_id] at hmap

/-- The second outcome is the first one with the tokens `us` left over as well, unless the tokens or
the fuel ran out in the first one. -/
def Outcome.Stable (us : List Token) : Outcome α → Outcome α → Prop
  | .done value rest, other => other = .done value (rest ++ us)
  | .rejected report rest, other => other = .rejected report (rest ++ us)
  | .ended report, other => us = [] → other = .ended report
  | .exhausted, _ => True

namespace Outcome.Continues

variable {f : α → β} {o p : Outcome α} {made more : List Diagnostic}

/-- In the exact view, what was read or refused does not depend on the tokens that follow. -/
theorem stable (hf : Function.Injective f) (h : o.Continues .exact f us made p more) :
    o.Stable us p := by
  cases h with
  | done hvalue hrest _ =>
    rw [Stable, hf hvalue, View.exact_sees.1 hrest]
  | rejected hreport hrest _ =>
    rw [View.exact_reports, View.exact_reports] at hreport
    rw [Stable, hreport, View.exact_sees.1 hrest]
  | ended _ hend =>
    intro hus
    obtain ⟨es, rfl, hreport⟩ := hend hus
    rw [View.exact_reports, View.exact_reports] at hreport
    rw [hreport]
  | exhausted => trivial

/-- In the exact view, what was reported so far stays reported. -/
theorem prefix_made (h : o.Continues .exact f us made p more) : made <+: more := by
  have hfront : View.exact.reports made <+: View.exact.reports more := by
    cases h with
    | done _ _ hmade => exact hmade ▸ List.prefix_refl _
    | rejected _ _ hmade => exact hmade ▸ List.prefix_refl _
    | ended hmade => exact hmade
    | exhausted hmade => exact hmade
  rwa [View.exact_reports, View.exact_reports] at hfront

end Outcome.Continues

/-- More fuel changes nothing if there was enough. -/
theorem Rule.Continues.eq_of_ne_exhausted {f : α → β} {rule full : Rule α} {ts : List Token}
    (h : Continues .exact f rule full) (hf : Function.Injective f) (hne : rule ts ≠ .exhausted) :
    full ts = rule ts := by
  have hstable := (h ts [] ts (by rw [List.append_nil]; exact View.exact_sees.2 rfl)).stable hf
  cases hr : rule ts with
  | done value rest =>
    rw [hr, Outcome.Stable, List.append_nil] at hstable
    exact hstable
  | rejected report rest =>
    rw [hr, Outcome.Stable, List.append_nil] at hstable
    exact hstable
  | ended report =>
    rw [hr] at hstable
    exact hstable rfl
  | exhausted => exact absurd hr hne

end Zed
