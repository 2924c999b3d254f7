import Mathlib.Data.List.Count
import Mathlib.Data.List.Forall2
import Zed.Proofs.Grammar.Accounting
import Zed.Proofs.Grammar.Continuation

/-!
# Which tokens are blamed

Every fault is charged to a token, in the order of the tokens, and no token is charged with
more than two. `Charges` says this of a list of tokens and the diagnostics about them, one
token after the other.

A rule starts with nothing charged to the tokens in front of it. When it is done, the same is true
of the tokens that are left, and all diagnostics are `Settled` on the tokens it has read. There are
two exceptions, where one diagnostic is charged to a token that stays (`Owed`): a token that is
refused, and a token in the place of the colon after a simple statement. In both cases it is the
block around that deals with the token next. The block reads it in any case and may blame it once
more, because no statement starts with it.
-/

set_option autoImplicit false

namespace Zed

/-- The words in which the grammar says what it expects. -/
abbrev Expectation.Wording : Type :=
  { words : String // ∃ wanted : Expectation, wanted.wording = words }

/-- The diagnostic says that something else should stand in the place of the token. -/
def Diagnostic.Blames (d : Diagnostic) (t : Token) : Prop :=
  ∃ wanted : Expectation.Wording, d = .misplaced wanted t

/-- Whatever was expected, the diagnostic blames the token that stands in its place. -/
theorem Expectation.blames (wanted : Expectation) (t : Token) : (wanted.blame t).Blames t :=
  ⟨⟨wanted.wording, wanted, rfl⟩, rfl⟩

/-- A diagnostic that blames a token was made of something the grammar expects. -/
theorem Diagnostic.Blames.exists_blame {d : Diagnostic} {t : Token} (h : d.Blames t) :
    ∃ wanted : Expectation, d = wanted.blame t := by
  obtain ⟨⟨words, wanted, rfl⟩, rfl⟩ := h
  exact ⟨wanted, rfl⟩

/-- The diagnostics blame the tokens in their order, and each of them at most twice. -/
inductive Charges : List Token → List Diagnostic → Prop
  | nil : Charges [] []
  | cons {t : Token} {ts : List Token} {ds more : List Diagnostic} :
      (∀ d ∈ ds, d.Blames t) → ds.length ≤ 2 → Charges ts more → Charges (t :: ts) (ds ++ more)

variable {ts us mid rest : List Token} {t : Token} {ds es due made : List Diagnostic}

namespace Charges

/-- No token has to be blamed. -/
theorem none (ts : List Token) : Charges ts [] := by
  induction ts with
  | nil => exact .nil
  | cons t ts ih => exact .cons (fun _ h => absurd h List.not_mem_nil) (Nat.zero_le 2) ih

/-- Charges to two lists of tokens in a row are charges to all of them. -/
theorem append (h : Charges us ds) (h' : Charges ts es) : Charges (us ++ ts) (ds ++ es) := by
  induction h with
  | nil => exact h'
  | cons hblames hle _ ih =>
    rw [List.append_assoc]
    exact .cons hblames hle ih

/-- There are at most two diagnostics for each token. -/
theorem length_le (h : Charges ts ds) : ds.length ≤ 2 * ts.length := by
  induction h with
  | nil => exact Nat.le_refl 0
  | cons _ hle _ ih =>
    rw [List.length_append, List.length_cons]
    omega

/-- The places of the blamed tokens, one for each diagnostic. -/
theorem exists_indices (h : Charges ts ds) :
    ∃ is : List Nat, is.Pairwise (· ≤ ·) ∧ (∀ i, is.count i ≤ 2) ∧
      List.Forall₂ (fun i d => ∃ t, ts[i]? = some t ∧ d.Blames t) is ds := by
  induction h with
  | nil => exact ⟨[], .nil, fun _ => Nat.zero_le 2, .nil⟩
  | @cons t ts ds more hblames hle _ ih =>
    obtain ⟨is, hsorted, hcount, hall⟩ := ih
    refine ⟨List.replicate ds.length 0 ++ is.map Nat.succ, ?_, fun i => ?_, ?_⟩
    · rw [List.pairwise_append]
      refine ⟨List.pairwise_replicate.2 (.inr (Nat.le_refl 0)),
        hsorted.map _ fun _ _ => Nat.succ_le_succ, ?_⟩
      intro i hi j _
      rw [List.eq_of_mem_replicate hi]
      exact Nat.zero_le j
    · rw [List.count_append, List.count_replicate]
      cases i with
      | zero =>
        have hnone : (is.map Nat.succ).count 0 = 0 := List.count_eq_zero.2 (by simp)
        simpa [hnone] using hle
      | succ i =>
        rw [List.count_map_of_injective _ _ fun _ _ => Nat.succ.inj]
        simpa using hcount i
    · apply List.rel_append
      · rw [List.forall₂_iff_get]
        refine ⟨List.length_replicate, fun i _ hi => ?_⟩
        exact ⟨t, by simp, hblames _ (List.get_mem ds ⟨i, hi⟩)⟩
      · rw [List.forall₂_map_left_iff]
        exact hall.imp fun i d h => h

end Charges

/-! ## What is charged before and after a rule -/

/-- All diagnostics are charged to the tokens before `rest`. -/
def Settled (ts rest : List Token) (made : List Diagnostic) : Prop :=
  ∃ us, ts = us ++ rest ∧ Charges us made

/-- There is at most one diagnostic, and it is charged to the first of the tokens. -/
def Owed (rest : List Token) (due : List Diagnostic) : Prop :=
  due.length ≤ 1 ∧ ∀ d ∈ due, ∃ t ∈ rest.head?, d.Blames t

/-- The diagnostics are charged to the tokens before `rest`, except for the last one perhaps, which
is charged to the first token of `rest`. -/
def Pending (ts rest : List Token) (made : List Diagnostic) : Prop :=
  ∃ ds due, made = ds ++ due ∧ Settled ts rest ds ∧ Owed rest due

theorem Owed.nil (rest : List Token) : Owed rest [] :=
  ⟨Nat.zero_le 1, fun _ h => absurd h List.not_mem_nil⟩

theorem Owed.singleton {d : Diagnostic} (h : d.Blames t) : Owed (t :: rest) [d] :=
  ⟨Nat.le_refl 1, List.forall_mem_singleton.2 ⟨t, rfl, h⟩⟩

theorem Owed.blames (h : Owed (t :: rest) due) : ∀ d ∈ due, d.Blames t := by
  intro d hd
  obtain ⟨u, hu, hblames⟩ := h.2 d hd
  cases hu
  exact hblames

/-- A diagnostic that is owed can be charged right away. -/
theorem Owed.charges (h : Owed rest due) : Charges rest due := by
  cases rest with
  | nil =>
    cases due with
    | nil => exact .nil
    | cons d due =>
      obtain ⟨t, ht, -⟩ := h.2 d List.mem_cons_self
      cases ht
  | cons t rest =>
    have hcharges := Charges.cons h.blames (Nat.le_succ_of_le h.1) (Charges.none rest)
    rwa [List.append_nil] at hcharges

theorem Settled.refl (ts : List Token) : Settled ts ts [] :=
  ⟨[], rfl, .nil⟩

/-- Reading one token more settles what is charged to it, if that is not more
than two diagnostics. -/
theorem Settled.cons (hblames : ∀ d ∈ ds, d.Blames t) (hle : ds.length ≤ 2)
    (h : Settled ts rest made) : Settled (t :: ts) rest (ds ++ made) := by
  obtain ⟨us, rfl, hus⟩ := h
  exact ⟨t :: us, rfl, .cons hblames hle hus⟩

/-- A token is read without being blamed. -/
theorem Settled.skip (h : Settled ts rest made) : Settled (t :: ts) rest made :=
  h.cons (fun _ hd => absurd hd List.not_mem_nil) (Nat.zero_le 2)

/-- What two rules settle one after the other is settled. -/
theorem Settled.trans (h : Settled ts mid ds) (h' : Settled mid rest es) :
    Settled ts rest (ds ++ es) := by
  obtain ⟨us, rfl, hus⟩ := h
  obtain ⟨vs, rfl, hvs⟩ := h'
  exact ⟨us ++ vs, by rw [List.append_assoc], hus.append hvs⟩

/-- What is settled first does not change what is pending later. -/
theorem Settled.trans_pending (h : Settled ts mid ds) (h' : Pending mid rest es) :
    Pending ts rest (ds ++ es) := by
  obtain ⟨es, due, rfl, hsettled, hdue⟩ := h'
  exact ⟨ds ++ es, due, by rw [List.append_assoc], h.trans hsettled, hdue⟩

/-- Diagnostics that are settled, and charges to the tokens that are left, are charges
to all tokens. -/
theorem Settled.charges (h : Settled ts mid ds) (h' : Charges mid es) : Charges ts (ds ++ es) := by
  obtain ⟨us, rfl, hus⟩ := h
  exact hus.append h'

theorem Settled.pending (h : Settled ts rest made) : Pending ts rest made :=
  ⟨made, [], by rw [List.append_nil], h, .nil rest⟩

theorem Owed.pending (h : Owed ts due) : Pending ts ts due :=
  ⟨[], due, rfl, .refl ts, h⟩

/-- A token is read with what is owed for it. -/
theorem Owed.settled (h : Owed (t :: rest) due) : Settled (t :: rest) rest due := by
  have hsettled := (Settled.refl rest).cons h.blames (Nat.le_succ_of_le h.1)
  rwa [List.append_nil] at hsettled

/-- A token is blamed once more and then read. -/
theorem Owed.settled_concat {d : Diagnostic} (h : Owed (t :: rest) due) (hd : d.Blames t) :
    Settled (t :: rest) rest (due ++ [d]) := by
  have hblames : ∀ e ∈ due ++ [d], e.Blames t :=
    List.forall_mem_append.2 ⟨h.blames, List.forall_mem_singleton.2 hd⟩
  have hle : (due ++ [d]).length ≤ 2 := by
    rw [List.length_append, List.length_singleton]
    exact Nat.succ_le_succ h.1
  have hsettled := (Settled.refl rest).cons hblames hle
  rwa [List.append_nil] at hsettled

/-- What was settled before comes in front. -/
def Absorbs (final : List Token → List Token → List Diagnostic → Prop) : Prop :=
  ∀ ⦃ts mid rest ds es⦄, Settled ts mid ds → final mid rest es → final ts rest (ds ++ es)

theorem settled_absorbs : Absorbs Settled :=
  fun _ _ _ _ _ => Settled.trans

theorem pending_absorbs : Absorbs Pending :=
  fun _ _ _ _ _ => Settled.trans_pending

/-- Where the diagnostics `made` on the way to an outcome are charged; `final` says it
for a value. -/
def Outcome.Charged {α : Type} (final : List Token → List Token → List Diagnostic → Prop)
    (ts : List Token) (made : List Diagnostic) : Outcome α → Prop
  | .done _ rest => final ts rest made
  | .rejected _ rest => Pending ts rest made
  | .ended _ => Charges ts made
  | .exhausted => True

namespace Outcome.Charged

variable {α : Type} {outcome : Outcome α}

theorem after {final : List Token → List Token → List Diagnostic → Prop} {earlier : List Diagnostic}
    (h : outcome.Charged final ts made) : (outcome.after earlier).Charged final ts made := by
  cases outcome <;> exact h

theorem prepend {outcome : Outcome Block} {statements : List Statement} {found : List Diagnostic}
    (h : outcome.Charged Settled ts made) :
    (outcome.prepend statements found).Charged Settled ts made := by
  cases outcome <;> exact h

/-- What was settled on the tokens before comes in front. -/
theorem of_settled {final : List Token → List Token → List Diagnostic → Prop}
    (hfinal : Absorbs final) (hsettled : Settled ts mid ds) (h : outcome.Charged final mid made) :
    outcome.Charged final ts (ds ++ made) := by
  cases outcome with
  | done value rest => exact hfinal hsettled h
  | rejected report rest => exact hsettled.trans_pending h
  | ended report => exact hsettled.charges h
  | exhausted => trivial

end Outcome.Charged

namespace Rule

/-- The rule charges every diagnostic that it makes. -/
def Charged {α : Type} (final : List Token → List Token → List Diagnostic → Prop)
    (rule : Rule α) : Prop :=
  ∀ ts, (rule ts).Charged final ts (rule.made ts)

variable {α β γ : Type} {rule : Rule α} {next : α → Rule γ}
  {final : List Token → List Token → List Diagnostic → Prop}

/-- A rule after which everything is settled can be followed by any rule that charges
its own diagnostics. -/
theorem Charged.bind (hfinal : Absorbs final) (h : rule.Charged Settled)
    (hnext : ∀ value, (next value).Charged final) :
    (rule >>= next).Charged final := by
  intro ts
  have hrule := h ts
  rw [run_bind, made_bind]
  cases hr : rule ts <;> rw [hr] at hrule
  case done value mid => exact (hnext value mid).of_settled hfinal hrule
  all_goals
    rw [Outcome.follow, List.append_nil]
    exact hrule

/-- A rule after which everything is settled leaves nothing pending, in particular. -/
theorem Charged.pending (h : rule.Charged Settled) : rule.Charged Pending := by
  intro ts
  have hrule := h ts
  cases hr : rule ts <;> rw [hr] at hrule
  case done => exact Settled.pending hrule
  all_goals exact hrule

/-- A rule that only looks at a token makes no diagnostic. -/
theorem lookahead_charged {f : α → β} {no : α} (h : Lookahead .exact f no rule) :
    rule.Charged Settled := by
  intro ts
  rw [h.quiet]
  cases ts with
  | nil =>
    rw [h.nil]
    exact Settled.refl []
  | cons t ts =>
    obtain ⟨a, b, _, hread | hleft⟩ := h.cons (Eq.refl (View.exact.token t))
    · rw [(hread ts ts).1]
      exact (Settled.refl ts).skip
    · rw [(hleft ts ts).1]
      exact Settled.refl (t :: ts)

theorem current_charged : current.Charged Settled := by
  intro ts
  cases ts with
  | nil => exact Charges.nil
  | cons t ts => exact Settled.refl (t :: ts)

/-- What comes behind a token that stays may blame it. -/
theorem current_bind_charged {next : Token → Rule γ}
    (hnext : ∀ t ts, (next t (t :: ts)).Charged final (t :: ts) ((next t).made (t :: ts))) :
    (current >>= next).Charged final := by
  intro ts
  cases ts with
  | nil => exact Charges.nil
  | cons t ts => exact hnext t ts

/-- A token that is refused stays, with one diagnostic. What comes behind a token that was read
may blame it. -/
theorem take_bind_charged {accept : Token → Except Expectation α}
    (hnext : ∀ value, (next value ts).Charged final (t :: ts) ((next value).made ts)) :
    ((take accept >>= next) (t :: ts)).Charged final (t :: ts)
      ((take accept >>= next).made (t :: ts)) := by
  rw [run_bind, made_bind, run_take_cons, made_take_cons]
  cases accept t with
  | ok value => exact hnext value
  | error wanted => exact (Owed.singleton (wanted.blames t)).pending

/-- A token that is taken is charged with nothing. A token that is refused stays, and is charged
with the refusal. -/
theorem take_charged (accept : Token → Except Expectation α) : (take accept).Charged Settled := by
  intro ts
  cases ts with
  | nil => exact Charges.nil
  | cons t ts =>
    rw [run_take_cons, made_take_cons]
    cases accept t with
    | ok value => exact (Settled.refl ts).skip
    | error wanted => exact (Owed.singleton (wanted.blames t)).pending

/-- The token of a step of zero is blamed when it has been read, so that nothing is owed. -/
theorem step_charged : step.Charged Settled := by
  apply current_bind_charged
  intro t ts
  apply take_bind_charged
  intro size
  cases size.isZero with
  | false => exact (Settled.refl ts).skip
  | true =>
    have hblames : ∀ d ∈ [Expectation.blame .nonzeroStep t], d.Blames t :=
      List.forall_mem_singleton.2 (Expectation.blames .nonzeroStep t)
    exact (Settled.cons hblames (Nat.le_succ 1) (.refl ts)).pending

/-- Most rules charge what they make, whatever the tokens look like. -/
theorem charged_congruence : Congruence .exact fun _ rule _ => rule.Charged Settled where
  pure _ := Settled.refl
  bind h hnext := h.bind settled_absorbs fun value => hnext value value rfl
  spent := fun _ => trivial
  current := current_charged
  take _ := take_charged _
  ahead h _ _ hnext := (lookahead_charged h).bind settled_absorbs fun value => hnext value value rfl
  step := step_charged
  after _ h := fun ts => (h ts).after

/-! ## Statements and blocks -/

/-- A token in the place of a colon stays, with one diagnostic. -/
theorem endOfSimple_charged (statement : Statement) : (endOfSimple statement).Charged Pending := by
  apply current_bind_charged
  intro t ts
  cases t.isSymbol .colon with
  | true => exact (Settled.refl (t :: ts)).pending
  | false => exact (Owed.singleton (Expectation.blames _ t)).pending

/-- After an output, the token in the place of its colon may be charged. -/
theorem output_charged (fuel : Nat) : (output fuel).Charged Pending := by
  apply Charged.bind pending_absorbs (charged_congruence.terms (Nat.le_refl fuel))
  intro shown
  exact endOfSimple_charged _

/-- After an assignment, the token in the place of its colon may be charged. -/
theorem assignment_charged (fuel : Nat) : (assignment fuel).Charged Pending := by
  apply Charged.bind pending_absorbs (take_charged _)
  intro target
  apply Charged.bind pending_absorbs (charged_congruence.value (Nat.le_refl fuel))
  intro given
  have hoperator : ∀ t u, View.exact.token t = View.exact.token u →
      (arithmetic? t).map id = (arithmetic? u).map id := by
    rintro t u rfl
    rfl
  apply Charged.bind pending_absorbs (lookahead_charged (optional_lookahead hoperator))
  intro operator
  exact endOfSimple_charged _

/-- Whichever statement a token opens, its rule leaves at most the token in the place of
a colon charged. -/
theorem statement?_charged {block : Rule Block} (hblock : block.Charged Settled) (fuel : Nat)
    (kind : Token.Kind) :
    statement? fuel block kind = none ∨
      ∃ rule, statement? fuel block kind = some rule ∧ rule.Charged Pending := by
  rcases @Congruence.statement? _ _ _ _ charged_congruence fuel fuel block block hblock
    (Nat.le_refl fuel) _ Charged.pending (output_charged fuel) (assignment_charged fuel) kind with
    ⟨hnone, -⟩ | ⟨rule, -, hrule, -, hcharged⟩
  · exact .inl hnone
  · exact .inr ⟨rule, hrule, hcharged⟩

/-- The rule settles what is owed for the first token it is given. -/
def Settles (rule : Rule Block) : Prop :=
  ∀ ts due, Owed ts due → (rule ts).Charged Settled ts (due ++ rule.made ts)

/-- The rest of a block settles what is pending when the part before it has been read. -/
theorem Settles.prepend {rule : Rule Block} (h : rule.Settles)
    (hpending : Pending ts mid (due ++ made)) (statements : List Statement)
    (found : List Diagnostic) :
    (rule.prepend statements found mid).Charged Settled ts
      (due ++ (made ++ (rule.prepend statements found).made mid)) := by
  obtain ⟨ds, due', heq, hsettled, hdue'⟩ := hpending
  rw [run_prepend, made_prepend, ← List.append_assoc, heq, List.append_assoc]
  exact ((h mid due' hdue').of_settled settled_absorbs hsettled).prepend

/-- It is settled once the first token was read, and where there is none nothing is owed. -/
theorem anyToken_settles {next : Token → Rule Block}
    (hnext : ∀ t ts due, Owed (t :: ts) due →
      (next t ts).Charged Settled (t :: ts) (due ++ (next t).made ts)) :
    (anyToken >>= next).Settles := by
  intro ts due hdue
  cases ts with
  | nil =>
    have hquiet : (anyToken >>= next).made [] = [] := rfl
    rw [hquiet, List.append_nil]
    exact hdue.charges
  | cons t ts => exact hnext t ts due hdue

/-- A block settles what is owed for its first token: in every turn that token is read, and blamed
at most once before it is. -/
theorem block_settles (fuel : Nat) (close : Keyword) (skipping : Bool) :
    (block fuel close skipping).Settles := by
  induction fuel generalizing close skipping with
  | zero =>
    intro ts due hdue
    trivial
  | succ fuel ih =>
    have hblock : (block fuel .ENDDO false).Charged Settled :=
      fun ts => ih .ENDDO false ts [] (.nil ts)
    apply anyToken_settles
    intro t ts due hdue
    split
    · have hquiet : (pure (.mk [] []) : Rule Block).made ts = [] := rfl
      rw [hquiet, List.append_nil]
      exact hdue.settled
    split
    · exact (ih close false ts [] (.nil ts)).of_settled settled_absorbs hdue.settled
    split
    · exact (ih close true ts [] (.nil ts)).of_settled settled_absorbs hdue.settled
    rcases statement?_charged hblock fuel t.kind with hnone | ⟨rule, hrule, hcharged⟩
    · -- no statement starts here: this is the second diagnostic if one was owed
      rw [hnone]
      have hsettled := hdue.settled_concat (Expectation.blames .statement t)
      exact (ih close true).prepend hsettled.pending [] _
    · rw [hrule]
      have hstatement := hcharged ts
      rw [run_recover, made_recover]
      cases hr : rule ts <;> rw [hr] at hstatement
      case done read rest =>
        exact (ih close false).prepend (hdue.settled.trans_pending hstatement) [read.1] read.2
      case rejected found rest =>
        exact (ih close true).prepend (hdue.settled.trans_pending hstatement) [] found
      case ended found =>
        rw [Outcome.follow, List.append_nil]
        exact hdue.settled.charges hstatement
      case exhausted => trivial

/-- The header settles its diagnostics. -/
theorem header_charged : header.Charged Settled :=
  Charged.bind settled_absorbs (take_charged _) fun _ => take_charged _

/-- A block with enough fuel settles its diagnostics, and reports all of them. -/
theorem block_charged {fuel : Nat} {us : List Token} (hlt : us.length < fuel) (close : Keyword)
    (skipping : Bool) :
    (block fuel close skipping us).Charged Settled us (block fuel close skipping us).reported := by
  rw [block_reported hlt]
  exact block_settles fuel close skipping us [] (.nil us)

end Rule

/-! ## Programs -/

namespace Reading

/-- The fault behind the end of a program is owed by the first token there. -/
theorem trailing_owed (rest : List Token) : Owed rest (trailing rest) := by
  cases rest with
  | nil => exact .nil []
  | cons t rest => exact .singleton (Expectation.blames .endOfProgram t)

/-- All diagnostics of a reading are charged to its tokens. -/
theorem ofTokens_charges (ts : List Token) : Charges ts (ofTokens ts).diagnostics := by
  have hcharged := Rule.header_charged ts
  have hreads := @Rule.header_reads ts.length
  generalize hr : ofTokens ts = r
  cases hr ▸ ofTokens_course ts with
  | refused hheader =>
    rw [hheader, ← (hreads.rejected hheader).1] at hcharged
    obtain ⟨ds, due, heq, hsettled, hdue⟩ := hcharged
    rw [heq]
    exact hsettled.charges hdue.charges
  | unnamed => exact .none ts
  | @unfinished name us report hheader hbody =>
    obtain ⟨-, -, hquiet, -⟩ := hreads.done hheader
    have hblock := Rule.block_charged (Nat.lt_succ_self us.length) .ENDPROG false
    rw [hheader, hquiet] at hcharged
    rw [hbody] at hblock
    exact Settled.charges hcharged hblock
  | @finished name us rest body hheader hbody =>
    obtain ⟨-, -, hquiet, -⟩ := hreads.done hheader
    have hblock := Rule.block_charged (Nat.lt_succ_self us.length) .ENDPROG false
    rw [hheader, hquiet] at hcharged
    rw [hbody] at hblock
    exact (Settled.trans hcharged hblock).charges (trailing_owed rest).charges

/-- Every diagnostic of a reading blames one of its tokens. They come in the order of the tokens,
and no token is blamed more than twice. -/
theorem ofTokens_blames_in_order (ts : List Token) :
    (∃ is : List Nat, is.Pairwise (· ≤ ·) ∧ (∀ i, is.count i ≤ 2) ∧
      List.Forall₂ (fun i d => ∃ t wanted, ts[i]? = some t ∧ d = Diagnostic.misplaced wanted t ∧
        d.position = some t.position ∧
        d.message = "Expected " ++ wanted ++ " instead of '" ++ t.lexeme ++ "'" ++
          Diagnostic.place t.position) is (ofTokens ts).diagnostics) ∧
    (ofTokens ts).diagnostics.length ≤ 2 * ts.length := by
  refine ⟨?_, (ofTokens_charges ts).length_le⟩
  obtain ⟨is, hsorted, hcount, hblames⟩ := (ofTokens_charges ts).exists_indices
  refine ⟨is, hsorted, hcount, hblames.imp ?_⟩
  rintro i d ⟨t, ht, wanted, rfl⟩
  exact ⟨t, wanted, ht, rfl, rfl, rfl⟩

end Reading

end Zed
