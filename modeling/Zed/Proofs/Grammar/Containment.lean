import Zed.Proofs.Grammar.Course
import Zed.Proofs.Grammar.Gap
import Zed.Token.Scan

/-!
# Damage to a simple statement stays inside it

Tokens are put into a faultless program at a point where an item can stand, with a colon behind
them. None of them is a colon, closes something or begins a compound statement, but otherwise they
are arbitrary. Then what is read is still a program, and the same one but for some simple statements
at that very point and the diagnostics recorded there (`ofTokens_insert_inert`).

There are two parts to this. No rule for a simple statement gets past a colon (`Confined`), so a
block that comes to such tokens is behind the colon sooner or later, with nothing left to skip. And
what is around the point is read as it was, since a compound statement hands on what its blocks
report and looks at them in no other way.
-/

set_option autoImplicit false

namespace Zed

/-- The keywords that a compound statement begins with. -/
def Keyword.opensStatement : Keyword → Bool
  | WHEN | REPEAT | FOR | IF | SWITCH => true
  | _ => false

/-- The token neither separates items nor begins or ends anything that contains items. -/
def Token.isInert (t : Token) : Bool :=
  match t.kind with
  | .keyword word => !word.isCloser && !word.opensStatement
  | .symbol sign => sign ≠ .colon
  | _ => true

/-- The statement prints or assigns. -/
def Statement.isSimple : Statement → Bool
  | .output _ | .assign _ _ _ => true
  | _ => false

theorem Token.isCloser_of_isInert {t : Token} (h : t.isInert = true) : t.isCloser = false := by
  rw [Token.isInert] at h
  rw [Token.isCloser]
  split at h <;> simp_all

theorem Token.isColon_of_isInert {t : Token} (h : t.isInert = true) :
    t.isSymbol .colon = false := by
  rw [Token.isInert] at h
  rw [Token.isSymbol]
  split at h <;> simp_all

/-- A token that ends no block is not the keyword that ends a particular one. -/
theorem Token.isKeyword_of_isCloser {t : Token} {close : Keyword} (hclose : close.isCloser = true)
    (h : t.isCloser = false) : t.isKeyword close = false := by
  rw [← Bool.not_eq_true, Token.isKeyword_iff]
  intro hk
  simp [Token.isCloser, hk, hclose] at h

/-- A compound statement is not a simple one. -/
theorem Derives.isSimple_of_compound {us : List Token} {s : Statement}
    (h : Derives us (.compound s)) : s.isSimple = false := by
  cases h <;> rfl

/-- The outcome leaves a part of `us` and all of `tail`, and a value that was read satisfies `P`. -/
inductive Outcome.StopsIn {α : Type} (us tail : List Token) (P : α → Prop) : Outcome α → Prop
  | done {vs : List Token} {a : α} : vs <:+ us → P a → StopsIn us tail P (.done a (vs ++ tail))
  | rejected {vs : List Token} {report : List Diagnostic} :
      vs <:+ us → StopsIn us tail P (.rejected report (vs ++ tail))

/-- A rule that stops in a part of the tokens stops in all of them. -/
theorem Outcome.StopsIn.mono {α : Type} {us vs tail : List Token} {P : α → Prop} {o : Outcome α}
    (h : o.StopsIn vs tail P) (hvs : vs <:+ us) : o.StopsIn us tail P := by
  cases h with
  | done hws ha => exact .done (hws.trans hvs) ha
  | rejected hws => exact .rejected (hws.trans hvs)

namespace Rule

/-- Before a colon behind fewer than `n` other tokens the rule comes to an end and
leaves the colon. -/
def Confined {α : Type} (rule : Rule α) (n : Nat) (P : α → Prop) : Prop :=
  ∀ (us : List Token) (colon : Token) (rest : List Token), us.length < n →
    (∀ t ∈ us, t.isSymbol .colon = false) → colon.isSymbol .colon = true →
    (rule (us ++ colon :: rest)).StopsIn us (colon :: rest) P

namespace Confined

variable {α β : Type} {rule other : Rule α} {next : α → Rule β} {n : Nat} {P : α → Prop}
variable {Q : β → Prop}

theorem pure {a : α} (ha : P a) : Confined (pure a : Rule α) n P :=
  fun us _ _ _ _ _ => .done (List.suffix_refl us) ha

/-- A rule that stops in front of a colon, or is done in front of it, can be followed
by another one. -/
theorem bind (hrule : Confined rule n P) (hnext : ∀ a, P a → Confined (next a) n Q) :
    Confined (rule >>= next) n Q := by
  intro us colon rest hlen hus hcolon
  have h := hrule us colon rest hlen hus hcolon
  rw [run_bind]
  generalize rule (us ++ colon :: rest) = outcome at h
  cases h with
  | @done vs a hvs ha =>
    have hlen' : vs.length < n := Nat.lt_of_le_of_lt hvs.length_le hlen
    exact (hnext a ha vs colon rest hlen' (fun t ht => hus t (hvs.subset ht)) hcolon).mono hvs
  | rejected hvs => exact .rejected hvs

theorem ite (test : Bool) (hrule : Confined rule n P) (hother : Confined other n P) :
    Confined (if test then rule else other) n P := by
  cases test with
  | true => exact hrule
  | false => exact hother

theorem blame (wanted : Expectation) (t : Token) : Confined (blame wanted t) n fun _ => True :=
  fun us _ _ _ _ _ => .done (List.suffix_refl us) trivial

theorem current : Confined current n fun _ => True := by
  intro us colon rest _ _ _
  cases us with
  | nil => exact .done (List.suffix_refl []) trivial
  | cons t us => exact .done (List.suffix_refl (t :: us)) trivial

/-- No colon is accepted. -/
def RefusesColon (accept : Token → Except Expectation α) : Prop :=
  ∀ t, t.isSymbol .colon = true → ∃ wanted, accept t = .error wanted

/-- Before a colon a token is taken and is not that colon, or nothing is. -/
theorem take_cases {accept : Token → Except Expectation α} (haccept : RefusesColon accept)
    {colon : Token} (hcolon : colon.isSymbol .colon = true) (us rest : List Token) :
    (∃ t vs a, us = t :: vs ∧ take accept (us ++ colon :: rest) = .done a (vs ++ colon :: rest)) ∨
      ∃ report, take accept (us ++ colon :: rest) = .rejected report (us ++ colon :: rest) := by
  cases us with
  | nil =>
    obtain ⟨wanted, hwanted⟩ := haccept colon hcolon
    exact .inr ⟨_, by rw [List.nil_append, run_take_cons, hwanted]⟩
  | cons t us =>
    cases ht : accept t with
    | ok a => exact .inl ⟨t, us, a, rfl, by rw [List.cons_append, run_take_cons, ht]⟩
    | error wanted => exact .inr ⟨_, by rw [List.cons_append, run_take_cons, ht]⟩

/-- A rule that takes one token never takes a colon, if it refuses colons. -/
theorem take {accept : Token → Except Expectation α} (haccept : RefusesColon accept) :
    Confined (take accept) n fun _ => True := by
  intro us colon rest hlen hus hcolon
  rcases take_cases haccept hcolon us rest with ⟨t, vs, a, rfl, heq⟩ | ⟨report, heq⟩
  · rw [heq]
    exact .done (List.suffix_cons t vs) trivial
  · rw [heq]
    exact .rejected (List.suffix_refl us)

/-- If a token was taken there is one less for what follows. -/
theorem take_bind {accept : Token → Except Expectation α} (haccept : RefusesColon accept)
    (hnext : ∀ a, Confined (next a) n Q) : Confined (Rule.take accept >>= next) (n + 1) Q := by
  intro us colon rest hlen hus hcolon
  rcases take_cases haccept hcolon us rest with ⟨t, vs, a, rfl, heq⟩ | ⟨report, heq⟩
  · rw [run_bind, heq]
    have h := hnext a vs colon rest (Nat.lt_of_succ_lt_succ hlen)
      (List.forall_mem_cons.1 hus).2 hcolon
    exact h.mono (List.suffix_cons t vs)
  · rw [run_bind, heq]
    exact .rejected (List.suffix_refl us)

/-- An optional token is not a colon, if colons are not accepted. -/
theorem optional {accept : Token → Option α}
    (haccept : ∀ t, t.isSymbol .colon = true → accept t = none) :
    Confined (optional accept) n fun _ => True := by
  intro us colon rest hlen hus hcolon
  cases us with
  | nil =>
    rw [List.nil_append, run_optional_cons, haccept colon hcolon]
    exact .done (List.suffix_refl []) trivial
  | cons t us =>
    cases ht : accept t with
    | some a =>
      rw [List.cons_append, run_optional_cons, ht]
      exact .done (List.suffix_cons t us) trivial
    | none =>
      rw [List.cons_append, run_optional_cons, ht]
      exact .done (List.suffix_refl (t :: us)) trivial

theorem symbol {sign : Symbol} (hsign : sign ≠ .colon) : Confined (symbol sign) n fun _ => True :=
  take fun t ht => ⟨_, by rw [Token.isSymbol_eq_false_of_ne ht hsign.symm]; rfl⟩

theorem skipSymbol {sign : Symbol} (hsign : sign ≠ .colon) :
    Confined (skipSymbol sign) n fun _ => True :=
  .bind (optional fun t ht => by simp [Token.isSymbol_eq_false_of_ne ht hsign.symm])
    fun _ _ => .pure trivial

theorem skipKeyword (word : Keyword) : Confined (skipKeyword word) n fun _ => True :=
  .bind (optional fun t ht => by simp [Token.isKeyword_eq_false_of_isSymbol ht])
    fun _ _ => .pure trivial

theorem var : Confined var n fun _ => True :=
  take fun t ht => ⟨_, by rw [Token.isSymbol_iff.1 ht]⟩

theorem term : Confined term n fun _ => True :=
  take fun t ht => ⟨_, by rw [Token.isSymbol_iff.1 ht]⟩

theorem listGoesOn : Confined listGoesOn n fun _ => True :=
  take fun t ht => ⟨_, by simp [Token.isSymbol, Token.isSymbol_iff.1 ht]; rfl⟩

/-- A list of terms never goes past a colon. -/
theorem termsToBracket : ∀ fuel, Confined (termsToBracket fuel) fuel fun _ => True
  | 0 => fun us _ _ hlen => absurd hlen (Nat.not_lt_zero us.length)
  | fuel + 1 =>
    .take_bind (fun t ht => ⟨_, by rw [Token.isSymbol_iff.1 ht]⟩) fun _ =>
      .bind listGoesOn fun more _ =>
        .ite more (.bind (termsToBracket fuel) fun _ _ => .pure trivial) (.pure trivial)

theorem terms (fuel : Nat) : Confined (terms fuel) fuel fun _ => True :=
  .bind (symbol (by decide)) fun _ _ => .bind (skipSymbol (by decide)) fun empty _ =>
    .ite empty (.pure trivial) (termsToBracket fuel)

/-- A value never goes past a colon. -/
theorem value (fuel : Nat) : Confined (value fuel) fuel fun _ => True :=
  .bind (skipKeyword .IN) fun isInput _ =>
    .ite isInput (.bind (terms fuel) fun _ _ => .pure trivial) (.bind term fun _ _ => .pure trivial)

/-- A simple statement ends in front of its colon. -/
theorem endOfSimple {s : Statement} (hs : s.isSimple = true) :
    Confined (endOfSimple s) n fun found => found.1.isSimple = true :=
  .bind current
    fun t _ => .ite (t.isSymbol .colon) (.pure hs) (.bind (blame _ t) fun _ _ => .pure hs)

/-- An output never goes past a colon, and is a simple statement. -/
theorem output (fuel : Nat) : Confined (output fuel) fuel fun found => found.1.isSimple = true :=
  .bind (terms fuel) fun _ _ => endOfSimple rfl

/-- An assignment never goes past a colon, and is a simple statement. -/
theorem assignment (fuel : Nat) :
    Confined (assignment fuel) fuel fun found => found.1.isSimple = true :=
  .bind var fun _ _ => .bind (value fuel) fun _ _ =>
    .bind (optional fun t ht => by rw [arithmetic?, Token.isSymbol_iff.1 ht]; rfl) fun _ _ =>
      endOfSimple rfl

/-- What begins with a token that can be damage is a simple statement. -/
theorem statement? {fuel : Nat} {block : Rule Block} {t : Token} {rule : Rule (Reported Statement)}
    (ht : t.isInert = true) (h : statement? fuel block t.kind = some rule) :
    Confined rule fuel fun found => found.1.isSimple = true := by
  rw [statement?.eq_def] at h
  rw [Token.isInert] at ht
  split at h <;> cases h
  case h_1 => exact output fuel
  case h_2 => exact assignment fuel
  all_goals
    rename_i hk
    rw [hk] at ht
    cases ht

end Confined

section Turns

variable {fuel : Nat} {close : Keyword} {t : Token} {ts : List Token}

/-! ## What a block does with a damaged statement -/

/-- One turn of a block that passes over a token while it is skipping. -/
theorem block_skip (hclose : close.isCloser = true) (ht : t.isInert = true) :
    block (fuel + 1) close true (t :: ts) = block fuel close true ts := by
  have hcloser := Token.isCloser_of_isInert ht
  simp [block_cons, Token.isKeyword_of_isCloser hclose hcloser,
    Token.isColon_of_isInert ht, hcloser]

/-- One turn of a block that finds no beginning of a statement. -/
theorem block_refuse (hclose : close.isCloser = true) (ht : t.isInert = true)
    (hrule : statement? fuel (block fuel .ENDDO false) t.kind = none) :
    block (fuel + 1) close false (t :: ts) =
      (block fuel close true ts).prepend [] [Expectation.blame .statement t] := by
  have hkeyword := Token.isKeyword_of_isCloser hclose (Token.isCloser_of_isInert ht)
  simp [block_cons, hkeyword, Token.isColon_of_isInert ht, hrule]

/-- One turn of a block in which a statement is rejected. -/
theorem block_reject {rest : List Token} {rule : Rule (Reported Statement)}
    {report : List Diagnostic} (hclose : close.isCloser = true)
    (hrule : statement? fuel (block fuel .ENDDO false) t.kind = some rule)
    (hrejected : rule ts = .rejected report rest) :
    block (fuel + 1) close false (t :: ts) = (block fuel close true rest).prepend [] report := by
  obtain ⟨hkeyword, hcolon⟩ := statement?_eq_some_token hclose hrule
  simp [block_cons, hkeyword, hcolon, hrule, hrejected]

/-- A simple statement that is read without a fault before a colon takes all that is there. -/
theorem derives_of_done {vs rest : List Token} {colon : Token} {s : Statement}
    {rule : Rule (Reported Statement)} {block : Rule Block} (hblock : BlockReads fuel block .ENDDO)
    (hrule : statement? fuel block t.kind = some rule)
    (hdone : rule (ts ++ colon :: rest) = .done (s, []) (vs ++ colon :: rest))
    (hs : s.isSimple = true) (hvs : ∀ t ∈ vs, t.isSymbol .colon = false) :
    Derives (t :: ts) (.simple s) := by
  obtain ⟨ws, hws, -, ⟨hsimple, hcolon⟩ | hcompound⟩ := (statement?_reads hblock hrule).done hdone
  · -- the statement is followed by a colon, and there is none but the last token
    obtain ⟨colon', hhead, hcolon'⟩ := hcolon rfl
    cases vs with
    | nil =>
      obtain ⟨rfl, -⟩ := List.append_inj' hws rfl
      exact hsimple
    | cons v vs =>
      cases hhead
      rw [hvs _ List.mem_cons_self] at hcolon'
      cases hcolon'
  · rw [(hcompound.derives rfl).isSimple_of_compound] at hs
    cases hs

end Turns

/-- One turn of a block at inert tokens before a colon. What is left is a part of them, only a
simple statement can have been found, and a turn that reports nothing has skipped or has read them
all as one statement. -/
theorem exists_turn_of_inert {fuel : Nat} (skipping : Bool) (rest : List Token) {close : Keyword}
    {colon t : Token} {us : List Token} (hclose : close.isCloser = true)
    (hcolon : colon.isSymbol .colon = true) (hlen : us.length < fuel) (ht : t.isInert = true)
    (hus : ∀ u ∈ us, u.isInert = true) :
    ∃ vs skipping' new found, vs <:+ us ∧
      block (fuel + 1) close skipping (t :: us ++ colon :: rest) =
        (block fuel close skipping' (vs ++ colon :: rest)).prepend new found ∧
      (∀ s ∈ new, s.isSimple = true) ∧
      (skipping = false → found = [] → ∃ s, Derives (t :: us) (.simple s)) := by
  cases skipping with
  | true =>
    refine ⟨us, true, [], [], List.suffix_refl us, ?_, by simp, by simp⟩
    rw [Outcome.prepend_nil]
    exact block_skip hclose ht
  | false =>
    cases hrule : statement? fuel (block fuel .ENDDO false) t.kind with
    | none =>
      exact ⟨us, true, [], _, List.suffix_refl us, block_refuse hclose ht hrule, by simp, by simp⟩
    | some rule =>
      have hcolons : ∀ u ∈ us, u.isSymbol .colon = false :=
        fun u hu => Token.isColon_of_isInert (hus u hu)
      have hstops := Confined.statement? ht hrule us colon rest hlen hcolons hcolon
      generalize hout : rule (us ++ colon :: rest) = out at hstops
      cases hstops with
      | @done vs value hvs hs =>
        obtain ⟨s, ds⟩ := value
        refine ⟨vs, false, [s], ds, hvs, block_statement hclose hrule hout, by simpa using hs, ?_⟩
        rintro - rfl
        have hvs' : ∀ v ∈ vs, v.isSymbol .colon = false := fun v hv => hcolons v (hvs.subset hv)
        exact ⟨s, derives_of_done (block_reads fuel .ENDDO) hrule hout hs hvs'⟩
      | @rejected vs report hvs =>
        -- what is left is skipped, but the rejection has been reported
        have hreport := ((statement?_reads (block_reads fuel .ENDDO) hrule).rejected hout).2
        exact ⟨vs, true, [], report, hvs, block_reject hclose hrule hout, by simp,
          fun _ hnil => absurd hnil hreport⟩

/-- A block gets past any inert tokens and the colon behind them. It finds only simple statements
there, and some fault if it was not skipping and the tokens are not just one statement. -/
theorem exists_reaches_of_inert (fuel : Nat) (rest : List Token) {close : Keyword} {colon : Token}
    (hclose : close.isCloser = true) (hcolon : colon.isSymbol .colon = true) :
    ∀ {us : List Token} (skipping : Bool), us.length < fuel → (∀ t ∈ us, t.isInert = true) →
      ∃ left new found, Reaches close fuel skipping (us ++ colon :: rest) left rest new found ∧
        (∀ s ∈ new, s.isSimple = true) ∧
        (skipping = false → found = [] → us = [] ∨ ∃ s, Derives us (.simple s)) := by
  induction fuel with
  | zero =>
    intro us skipping hlen
    cases hlen
  | succ fuel ih =>
    intro us skipping hlen hus
    cases us with
    | nil =>
      exact ⟨fuel, [], [], .pass (by simp) (block_colon hcolon) .refl, by simp, fun _ _ => .inl rfl⟩
    | cons t us =>
      obtain ⟨ht, hus⟩ := List.forall_mem_cons.1 hus
      have hlen := Nat.lt_of_succ_lt_succ hlen
      obtain ⟨vs, skipping', new, found, hvs, hturn, hnew, hfound⟩ :=
        exists_turn_of_inert skipping rest hclose hcolon hlen ht hus
      obtain ⟨left, new', found', hreaches, hnew', -⟩ :=
        ih skipping' (Nat.lt_of_le_of_lt hvs.length_le hlen) fun v hv => hus v (hvs.subset hv)
      have hless : (vs ++ colon :: rest).length < (t :: us ++ colon :: rest).length := by
        have := hvs.length_le
        simp only [List.length_append, List.length_cons]
        omega
      refine ⟨left, new ++ new', found ++ found', .head hless hturn hreaches,
        List.forall_mem_append.2 ⟨hnew, hnew'⟩, fun hskipping hnil => ?_⟩
      exact .inr (hfound hskipping (List.append_eq_nil_iff.1 hnil).1)

/-! ## What is around the damage -/

section Around

variable {block : Rule Block} {fuel n : Nat} {ls rs ts rest : List Token} {opening closing : Token}
variable {b : Block}

/-! In each of these, `b` is read from `DO` on, and what is around it from there on. The fuel has to
cover only what is around it. -/

/-- If the rule for a block reads one body of a chain, the rule for further branches reads the
branches around it. -/
theorem otherBranches_around {around : Block → List (Option Condition × Block)}
    (hblock : CompleteBlock block .ENDDO n) (h : AroundBranch ls rs around)
    (hopening : opening.isKeyword .DO = true)
    (hbody : doBlock block (opening :: ts) = .done b (rs ++ closing :: rest))
    (hclosing : closing.isKeyword .ENDIF = true) :
    ∀ {fuel : Nat}, ls.length + rs.length < fuel → ls.length + rs.length ≤ n →
      otherBranches block fuel (ls ++ opening :: ts) = .done (around b, b.diagnostics) rest := by
  induction h with
  | @last word hword =>
    intro fuel hlen _
    obtain ⟨fuel, rfl⟩ := Nat.exists_eq_add_one_of_ne_zero (Nat.ne_zero_of_lt hlen)
    exact otherBranches_last hword hopening hbody hclosing
  | @here cs os word again test others hword hagain htest hothers =>
    intro fuel hlen hlen'
    obtain ⟨fuel, rfl⟩ := Nat.exists_eq_add_one_of_ne_zero (Nat.ne_zero_of_lt hlen)
    simp only [List.length_cons] at hlen hlen'
    have hothers' : otherBranches block fuel (os ++ closing :: rest) = .done (others, []) rest :=
      otherBranches_complete hblock (by omega) (by omega) hothers hclosing
    have htest' : condition fuel (cs ++ opening :: ts) = .done test (opening :: ts) :=
      condition_complete (by omega) htest
    simpa using otherBranches_next hword hagain htest' hbody hothers'
  | @later cs bs ls rs word again test body around hword hagain htest hfirst _ ih =>
    intro fuel hlen hlen'
    obtain ⟨fuel, rfl⟩ := Nat.exists_eq_add_one_of_ne_zero (Nat.ne_zero_of_lt hlen)
    simp only [List.length_append, List.length_cons] at hlen hlen'
    have hothers : otherBranches block fuel (ls ++ opening :: ts) =
        .done (around b, b.diagnostics) rest :=
      ih hbody (by omega) (by omega)
    have hfirst' : doBlock block (bs ++ (ls ++ opening :: ts)) = .done body (ls ++ opening :: ts) :=
      doBlock_complete hblock (by omega) hfirst
    have htest' : condition fuel (cs ++ (bs ++ (ls ++ opening :: ts))) = .done test _ :=
      condition_complete (by omega) htest
    -- the branch in front is as it was derived, so it adds nothing to what is reported
    simpa [hfirst.doBlock_diagnostics] using otherBranches_next hword hagain htest' hfirst' hothers

/-- If the rule for a block reads one body of a switch, the rule for arms reads the
arms around it. -/
theorem arms_around {around : Block → List (Literal × Block)}
    (hblock : CompleteBlock block .ENDDO n) (h : AroundArm ls rs around)
    (hbody : doBlock block ts = .done b (rs ++ closing :: rest))
    (hclosing : closing.isKeyword .ENDSWITCH = true) :
    ∀ {fuel : Nat}, ls.length + rs.length < fuel → ls.length + rs.length ≤ n →
      arms block fuel (ls ++ ts) = .done (around b, b.diagnostics) rest := by
  induction h with
  | @here ls as word label choices hword hlabel hothers =>
    intro fuel hlen hlen'
    obtain ⟨fuel, rfl⟩ := Nat.exists_eq_add_one_of_ne_zero (Nat.ne_zero_of_lt hlen)
    simp only [List.length_cons] at hlen hlen'
    have hothers' : arms block fuel (as ++ closing :: rest) = .done (choices, []) rest :=
      arms_complete hblock (by omega) (by omega) hothers hclosing
    simpa using arms_next hword hlabel hbody hothers'
  | @later ls bs us vs word label body around hword hlabel hfirst _ ih =>
    intro fuel hlen hlen'
    obtain ⟨fuel, rfl⟩ := Nat.exists_eq_add_one_of_ne_zero (Nat.ne_zero_of_lt hlen)
    simp only [List.length_append, List.length_cons] at hlen hlen'
    have hothers : arms block fuel (us ++ ts) = .done (around b, b.diagnostics) rest :=
      ih hbody (by omega) (by omega)
    have hfirst' : doBlock block (bs ++ (us ++ ts)) = .done body (us ++ ts) :=
      doBlock_complete hblock (by omega) hfirst
    simpa [hfirst.doBlock_diagnostics] using arms_next hword hlabel hfirst' hothers

/-- A compound statement is read with any block in it that is read, and hands on its diagnostics. -/
theorem statement?_around {around : Block → Statement} (hblock : CompleteBlock block .ENDDO fuel)
    (h : AroundBlock ls rs around) (hlen : ls.length + rs.length ≤ fuel)
    (hopening : opening.isKeyword .DO = true)
    (hbody : doBlock block (opening :: ts) = .done b (rs ++ rest)) :
    ∃ t vs rule, ls = t :: vs ∧ statement? fuel block t.kind = some rule ∧
      rule (vs ++ opening :: ts) = .done (around b, b.diagnostics) rest := by
  cases h with
  | @whileLoop cs word closing test hword htest hclosing =>
    simp only [List.length_cons] at hlen
    refine ⟨word, cs, whileLoop fuel block, rfl, by rw [Token.isKeyword_iff.1 hword]; rfl, ?_⟩
    have htest' : condition fuel (cs ++ opening :: ts) = .done test (opening :: ts) :=
      condition_complete (by omega) htest
    exact whileLoop_of_parts htest' hbody hclosing
  | @untilLoop cs word middle closing test hword hmiddle htest hclosing =>
    simp only [List.length_append, List.length_cons] at hlen
    refine ⟨word, [], untilLoop fuel block, rfl, by rw [Token.isKeyword_iff.1 hword]; rfl, ?_⟩
    have htest' : condition fuel (cs ++ closing :: rest) = .done test (closing :: rest) :=
      condition_complete (by omega) htest
    rw [List.append_assoc, List.cons_append] at hbody
    exact untilLoop_of_parts hbody hmiddle htest' hclosing
  | @forLoop vs as os ss word first last size closing counter start stop step hword hvar hfirst
      hstart hlast hstop hsize hstep hzero hclosing =>
    refine ⟨word, vs ++ first :: as ++ last :: os ++ size :: ss, forLoop block, rfl,
      by rw [Token.isKeyword_iff.1 hword]; rfl, ?_⟩
    exact forLoop_of_parts hvar hfirst hstart hlast hstop hsize hstep hzero hbody hclosing
  | @firstBranch cs os word closing test others hword htest hothers hclosing =>
    simp only [List.length_append, List.length_cons] at hlen
    refine ⟨word, cs, choice fuel block, rfl, by rw [Token.isKeyword_iff.1 hword]; rfl, ?_⟩
    have htest' : condition fuel (cs ++ opening :: ts) = .done test (opening :: ts) :=
      condition_complete (by omega) htest
    have hothers' : otherBranches block fuel (os ++ closing :: rest) = .done (others, []) rest :=
      otherBranches_complete hblock (by omega) (by omega) hothers hclosing
    rw [List.append_assoc] at hbody
    simpa using choice_of_parts htest' hbody hothers'
  | @otherBranch cs bs ls rs word closing test body around hword htest hfirst haround hclosing =>
    simp only [List.length_append, List.length_cons] at hlen
    refine ⟨word, cs ++ bs ++ ls, choice fuel block, rfl,
      by rw [Token.isKeyword_iff.1 hword]; rfl, ?_⟩
    rw [List.append_assoc] at hbody
    have hothers : otherBranches block fuel (ls ++ opening :: ts) =
        .done (around b, b.diagnostics) rest :=
      otherBranches_around hblock haround hopening hbody hclosing (by omega) (by omega)
    have hfirst' : doBlock block (bs ++ (ls ++ opening :: ts)) = .done body (ls ++ opening :: ts) :=
      doBlock_complete hblock (by omega) hfirst
    have htest' : condition fuel (cs ++ (bs ++ (ls ++ opening :: ts))) = .done test _ :=
      condition_complete (by omega) htest
    simpa [hfirst.doBlock_diagnostics] using choice_of_parts htest' hfirst' hothers
  | @arm vs ls rs word closing subject around hword hvar haround hclosing =>
    simp only [List.length_append, List.length_cons] at hlen
    refine ⟨word, vs ++ ls, switch fuel block, rfl, by rw [Token.isKeyword_iff.1 hword]; rfl, ?_⟩
    rw [List.append_assoc] at hbody
    have harms : arms block fuel (ls ++ opening :: ts) = .done (around b, b.diagnostics) rest :=
      arms_around hblock haround hbody hclosing (by omega) (by omega)
    simpa using switch_of_parts hvar harms

/-- A block gets past a compound statement with any block in it that is read. -/
theorem reaches_around {around : Block → Statement} {close : Keyword}
    (hclose : close.isCloser = true) (h : AroundBlock ls rs around)
    (hlen : ls.length + rs.length ≤ fuel) (hopening : opening.isKeyword .DO = true)
    (hbody : Rule.block fuel .ENDDO false ts = .done b (rs ++ rest))
    (hrest : rest.length ≤ ts.length) :
    Reaches close (fuel + 1) false (ls ++ opening :: ts) fuel rest [around b] b.diagnostics := by
  have hdo : doBlock (Rule.block fuel .ENDDO false) (opening :: ts) = .done b (rs ++ rest) := by
    simp only [doBlock, bind_eq_done, keyword_eq_done]
    exact ⟨(), ts, ⟨opening, hopening, rfl⟩, hbody⟩
  obtain ⟨t, vs, rule, rfl, hrule, hdone⟩ :=
    statement?_around (block_complete rfl) h hlen hopening hdo
  have hless : rest.length < (t :: (vs ++ opening :: ts)).length := by
    simp only [List.length_append, List.length_cons]
    omega
  have hreaches := Reaches.head hless (block_statement hclose hrule hdone) .refl
  rwa [List.append_nil, List.append_nil] at hreaches

end Around

end Rule

/-! ## The damaged program -/

/-- What a block finds where `garbage` and a colon stand: simple statements, and a fault unless
there is nothing or one statement. -/
structure Damage (garbage : List Token) (new : List Statement)
    (found : List Diagnostic) : Prop where
  simple : ∀ s ∈ new, s.isSimple = true
  reported : found = [] → garbage = [] ∨ ∃ s, Derives garbage (.simple s)

/-- The block with the gap, and each one around it, has the diagnostics that were found. -/
theorem Gap.diagnostics_eq {pre post : List Token} {fill : List Statement → List Diagnostic → Block}
    (h : Gap pre post fill) (new : List Statement) (found : List Diagnostic) :
    (fill new found).diagnostics = found := by
  cases h <;> rfl

/-- A block with damage in a gap is read as the block with what is found there put into the gap. -/
theorem Gap.exists_block_eq {pre post garbage : List Token} {colon : Token}
    {fill : List Statement → List Diagnostic → Block} (h : Gap pre post fill)
    (hgarbage : ∀ t ∈ garbage, t.isInert = true) (hcolon : colon.isSymbol .colon = true) :
    ∀ {fuel : Nat} {close : Keyword} {closing : Token} (rest : List Token),
      close.isCloser = true → closing.isKeyword close = true →
      (pre ++ (garbage ++ colon :: post)).length < fuel →
      ∃ new found, Damage garbage new found ∧
        Rule.block fuel close false (pre ++ (garbage ++ colon :: (post ++ closing :: rest))) =
          .done (fill new found) rest := by
  induction h with
  | @here us vs xs ys hbefore hbehind =>
    intro fuel close closing rest hclose hclosing hlen
    simp only [List.length_append, List.length_cons] at hlen
    -- the items before the gap, the damage, and the items behind it
    obtain ⟨left, hreaches⟩ := Rule.reaches_items fuel
      (garbage ++ colon :: (vs ++ closing :: rest)) hclose (by omega) hbefore
    have hleft := hreaches.covered
    simp only [List.length_append, List.length_cons] at hleft
    obtain ⟨left', new, found, hreaches', hnew, hfound⟩ := Rule.exists_reaches_of_inert left
      (vs ++ closing :: rest) hclose hcolon false (by omega) hgarbage
    have hleft' := hreaches'.covered
    simp only [List.length_append, List.length_cons] at hleft'
    obtain ⟨left'', hreaches''⟩ :=
      Rule.reaches_items left' (closing :: rest) hclose (by omega) hbehind
    have hall : (us ++ (garbage ++ colon :: (vs ++ closing :: rest))).length
        ≤ fuel + rest.length := by
      simp only [List.length_append, List.length_cons]
      omega
    refine ⟨new, found, ⟨hnew, hfound rfl⟩, ?_⟩
    rw [((hreaches.trans hreaches').trans hreaches'').done hall hclosing]
    simp only [List.nil_append, List.append_nil, List.append_assoc]
  | @inside us ls before behind rs vs opening closing xs ys around fill hbefore haround
      hopening hgap
      hclosing hbehind ih =>
    intro fuel close closing' rest hclose hclosing' hlen
    simp only [List.length_append, List.length_cons] at hlen
    -- everything from the block with the gap on
    let inner :=
      before ++ (garbage ++ colon :: (behind ++ closing :: (rs ++ (vs ++ closing' :: rest))))
    obtain ⟨left, hreaches⟩ :=
      Rule.reaches_items fuel (ls ++ opening :: inner) hclose (by omega) hbefore
    have hleft := hreaches.covered
    simp only [List.length_append, List.length_cons] at hleft
    -- the turn that reads the statement takes one unit of the fuel, and the block inside
    -- gets the rest
    obtain ⟨n, rfl⟩ := Nat.exists_eq_add_one_of_ne_zero (show left ≠ 0 by omega)
    have hinner : (before ++ (garbage ++ colon :: behind)).length < n := by
      simp only [List.length_append, List.length_cons]
      omega
    obtain ⟨new, found, hdamage, hblock⟩ := ih (rs ++ (vs ++ closing' :: rest)) rfl hclosing hinner
    have hrest : (vs ++ closing' :: rest).length ≤ inner.length := by
      simp only [inner, List.length_append, List.length_cons]
      omega
    have hreaches' := Rule.reaches_around hclose haround (by omega) hopening hblock hrest
    obtain ⟨left', hreaches''⟩ := Rule.reaches_items n (closing' :: rest) hclose (by omega) hbehind
    have hall : (us ++ (ls ++ opening :: inner)).length ≤ fuel + rest.length := by
      simp only [inner, List.length_append, List.length_cons]
      omega
    have hread := ((hreaches.trans hreaches').trans hreaches'').done hall hclosing'
    rw [hgap.diagnostics_eq] at hread
    exact ⟨new, found, hdamage, by simpa [inner] using hread⟩

/-- Inert tokens with a colon behind them, in a gap between two items of a program, change nothing
but this gap. -/
theorem ProgramGap.exists_ofTokens_eq {pre post garbage : List Token} {colon : Token}
    {fill : List Statement → List Diagnostic → Program} (h : ProgramGap pre post fill)
    (hgarbage : ∀ t ∈ garbage, t.isInert = true) (hcolon : colon.isSymbol .colon = true) :
    ∃ new found, Damage garbage new found ∧
      Reading.ofTokens (pre ++ garbage ++ colon :: post) =
        ⟨some (fill new found), (fill [] []).name, found, false⟩ := by
  cases h with
  | @mk before behind opening title closing name fill hopening htitle hgap hclosing =>
    let body := before ++ (garbage ++ colon :: (behind ++ [closing]))
    have hheader : Rule.header (opening :: title :: body) = .done name body :=
      Rule.header_eq_done.2 ⟨opening, title, hopening, htitle, rfl⟩
    have hlen : (before ++ (garbage ++ colon :: behind)).length < body.length + 1 := by
      simp only [body, List.length_append, List.length_cons]
      omega
    obtain ⟨new, found, hdamage, hblock⟩ :=
      hgap.exists_block_eq hgarbage hcolon [] rfl hclosing hlen
    refine ⟨new, found, hdamage, ?_⟩
    have hread := (Reading.Course.finished hheader hblock).eq
    rw [hgap.diagnostics_eq] at hread
    simpa [body, Reading.trailing] using hread

namespace Reading

/-- Damage in a program that was read without a fault is contained. Inert tokens and a colon are
put in at a point where an item can stand. The program that is read then is the one there was,
with simple statements put in at that point, and there is a fault unless the tokens are one
statement or none. -/
theorem ofTokens_insert_inert {pre post garbage : List Token} {colon : Token} {p : Program}
    (hprogram : (ofTokens (pre ++ post)).program = some p)
    (hclean : (ofTokens (pre ++ post)).diagnostics = []) (hpre : ItemBoundary pre)
    (hgarbage : ∀ t ∈ garbage, t.isInert = true) (hcolon : colon.isSymbol .colon = true) :
    ∃ fill new found, ProgramGap pre post fill ∧ fill [] [] = p ∧
      (∀ s ∈ new, s.isSimple = true) ∧
      ofTokens (pre ++ garbage ++ colon :: post) = ⟨some (fill new found), p.name, found, false⟩ ∧
      (found = [] → garbage = [] ∨ ∃ s, Derives garbage (.simple s)) := by
  have hderives := derives_of_diagnostics_eq_nil hprogram hclean
  obtain ⟨fill, hgap, rfl⟩ := hderives.exists_programGap hpre
  obtain ⟨new, found, hdamage, hread⟩ := hgap.exists_ofTokens_eq hgarbage hcolon
  exact ⟨fill, new, found, hgap, rfl, hdamage.simple, hread, hdamage.reported⟩

end Reading

/-- A program up to a point in a branch of a choice in a loop. -/
def tokensBeforeDamage : List Token :=
  Token.ofSource "PROG nest REPEAT DO IF == A 1 DO ENDDO OTHERWISE DO = A 2:"

/-- A statement without its colon, and the beginning of another one. -/
def damagedTokens : List Token :=
  Token.ofSource "OUT[A] = A OUT["

/-- The program from that point on. -/
def tokensBehindDamage : List Token :=
  Token.ofSource "OUT[A]: ENDDO ENDIF ENDDO UNTIL == A 2 ENDREPEAT ENDPROG"

theorem damagedTokens_contained :
    ∃ p, (Reading.ofTokens (tokensBeforeDamage ++ tokensBehindDamage)).program = some p ∧
      (Reading.ofTokens (tokensBeforeDamage ++ tokensBehindDamage)).diagnostics = [] ∧
        ItemBoundary tokensBeforeDamage ∧
      (∀ t ∈ damagedTokens, t.isInert = true) ∧
      ∃ fill new found, ProgramGap tokensBeforeDamage tokensBehindDamage fill ∧ fill [] [] = p ∧
        (∀ s ∈ new, s.isSimple = true) ∧
        Reading.ofTokens (tokensBeforeDamage ++ damagedTokens ++ ⟨.symbol .colon, ":", ⟨1, 60⟩⟩
          :: tokensBehindDamage) =
          ⟨some (fill new found), p.name, found, false⟩ ∧
        (found = [] → damagedTokens = [] ∨ ∃ s, Derives damagedTokens (.simple s)) := by
  have hread : (Reading.ofTokens (tokensBeforeDamage ++ tokensBehindDamage)).diagnostics = [] ∧
      (Reading.ofTokens (tokensBeforeDamage ++ tokensBehindDamage)).program.isSome = true := by
    decide +kernel
  have hpoint : ItemBoundary tokensBeforeDamage ∧ ∀ t ∈ damagedTokens, t.isInert = true := by
    decide +kernel
  obtain ⟨p, hp⟩ := Option.isSome_iff_exists.1 hread.2
  exact ⟨p, hp, hread.1, hpoint.1, hpoint.2,
    Reading.ofTokens_insert_inert hp hread.1 hpoint.1 hpoint.2 rfl⟩

end Zed
