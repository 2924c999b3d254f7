import Zed.Proofs.Grammar.Soundness

/-!
# What is derived is read

Every run of tokens that the grammar derives is read by its rule, whatever follows it, provided that
the fuel covers the run. A simple statement is the exception: its rule looks at the next token,
which has to be a colon.

Each compound statement is put together from its parts in one lemma that leaves open what its blocks
report, and a block is followed turn by turn (`Reaches`). Neither is about faultless blocks only.

Together with soundness this gives the two main results. Reading accepts exactly the token lists
that are derived as a program, with the derived program as the answer, and no token list is derived
as two programs (`ofTokens_eq_iff_derives`).
-/

set_option autoImplicit false

namespace Zed

/-- A condition starts with its negation or with its relation. -/
theorem Token.startsCondition_iff {t : Token} :
    t.startsCondition = true ↔ t.isSymbol .bang = true ∨
      ∃ r : Relation, t.isSymbol r.symbol = true := by
  rw [Token.startsCondition, Bool.or_eq_true, Option.isSome_iff_exists]
  simp only [Token.relation?_eq_some]

/-- A run derived as a condition starts with a sign that announces one. -/
theorem Derives.condition_cons {us : List Token} {c : Condition} (h : Derives us (.condition c)) :
    ∃ t vs, us = t :: vs ∧ t.startsCondition = true := by
  cases h with
  | relation hsign _ _ => exact ⟨_, _, rfl, Token.startsCondition_iff.2 (Or.inr ⟨_, hsign⟩)⟩
  | negation hbang _ => exact ⟨_, _, rfl, Token.startsCondition_iff.2 (Or.inl hbang)⟩

/-- A term is a single token, and that is no sign. -/
theorem Derives.term_singleton {us : List Token} {x : Term} (h : Derives us (.term x)) :
    ∃ t, us = [t] ∧ (∀ sign, t.isSymbol sign = false) ∧ ∀ word, t.isKeyword word = false := by
  cases h with
  | varTerm hvar =>
    cases hvar with
    | @var t name hk => exact ⟨t, rfl, by simp [Token.isSymbol, hk], by simp [Token.isKeyword, hk]⟩
  | @textTerm t body hk =>
    exact ⟨t, rfl, by simp [Token.isSymbol, hk], by simp [Token.isKeyword, hk]⟩
  | numberTerm hnumber =>
    cases hnumber with
    | @number t spelling _ hk hx =>
      exact ⟨t, rfl, by simp [Token.isSymbol, hk], by simp [Token.isKeyword, hk]⟩

/-- A block in a statement starts with its `DO`. -/
theorem Derives.doBlock_cons {us : List Token} {b : Block} (h : Derives us (.doBlock b)) :
    ∃ t vs, us = t :: vs ∧ t.isKeyword .DO = true := by
  cases h with
  | doBlock hopening _ _ => exact ⟨_, _, rfl, hopening⟩

/-- A block that the grammar derives has nothing to report. -/
theorem Derives.doBlock_diagnostics {us : List Token} {b : Block} (h : Derives us (.doBlock b)) :
    b.diagnostics = [] := by
  cases h with
  | doBlock _ _ _ => rfl

namespace Outcome

variable {o : Outcome Block}

theorem prepend_nil : o.prepend [] [] = o := by
  cases o with
  | done b rest => cases b; rfl
  | rejected report rest => rfl
  | ended report => rfl
  | exhausted => rfl

/-- Parts that are put in front of a block one after the other can be put there at once. -/
theorem prepend_prepend {ss ss' : List Statement} {ds ds' : List Diagnostic} :
    (o.prepend ss' ds').prepend ss ds = o.prepend (ss ++ ss') (ds ++ ds') := by
  cases o <;> simp [prepend, Block.statements, Block.diagnostics]

end Outcome

namespace Rule

variable {us rest : List Token} {fuel : Nat}

/-! ## Terms -/

/-- The rule for the terms up to a bracket reads every sum that stands in front of one. -/
theorem termsToBracket_complete {closing : Token}
    (hclosing : closing.isSymbol .closeBracket = true) :
    ∀ {us : List Token} {xs : List Term}, us.length ≤ fuel → Derives us (.sum xs) →
      termsToBracket fuel (us ++ closing :: rest) = .done xs rest := by
  induction fuel with
  | zero =>
    intro us xs hlen h
    rw [List.length_eq_zero_iff.1 (Nat.le_zero.1 hlen)] at h
    generalize hus : ([] : List Token) = us at h
    cases h with
    | lastTerm hterm =>
      obtain ⟨t, rfl, -⟩ := hterm.term_singleton
      cases hus
    | nextTerm hterm _ _ =>
      obtain ⟨t, rfl, -⟩ := hterm.term_singleton
      cases hus
  | succ fuel ih =>
    intro us xs hlen h
    simp only [termsToBracket, bind_eq_done, term_iff_opens, listGoesOn_eq_done]
    cases h with
    | @lastTerm _ x hterm =>
      exact ⟨x, _, ⟨us, rfl, hterm⟩, false, rest, ⟨closing, hclosing, rfl⟩,
        pure_eq_done.2 ⟨rfl, rfl⟩⟩
    | @nextTerm ts vs plus x xs hterm hplus hsum =>
      simp only [List.length_append, List.length_cons] at hlen
      refine ⟨x, plus :: vs ++ closing :: rest, ⟨ts, by simp, hterm⟩, true, vs ++ closing :: rest,
        ⟨plus, hplus, by simp⟩, ?_⟩
      simp only [if_true, bind_eq_done, pure_eq_done]
      exact ⟨xs, rest, ih (by omega) hsum, rfl, rfl⟩

/-- A nonempty sum does not begin with the bracket that would close an empty list. -/
theorem sum_head {xs : List Term} (h : Derives us (.sum xs)) :
    ∃ t vs, us = t :: vs ∧ t.isSymbol .closeBracket = false := by
  cases h with
  | lastTerm hterm =>
    obtain ⟨t, rfl, ht, -⟩ := hterm.term_singleton
    exact ⟨t, [], rfl, ht _⟩
  | nextTerm hterm _ _ =>
    obtain ⟨t, rfl, ht, -⟩ := hterm.term_singleton
    exact ⟨t, _, rfl, ht _⟩

/-- The rule for terms in brackets reads every such list. -/
theorem terms_complete {xs : List Term} (hlen : us.length ≤ fuel) (h : Derives us (.params xs)) :
    terms fuel (us ++ rest) = .done xs rest := by
  simp only [terms, bind_eq_done, symbol_eq_done, skipSymbol_eq_done]
  cases h with
  | @noParams opening closing hopening hclosing =>
    exact ⟨(), _, ⟨opening, hopening, rfl⟩, true, rest, Or.inl ⟨rfl, closing, hclosing, rfl⟩,
      pure_eq_done.2 ⟨rfl, rfl⟩⟩
  | @someParams ts opening closing _ hopening hsum hclosing =>
    simp only [List.length_append, List.length_cons, List.length_nil] at hlen
    obtain ⟨t, vs, rfl, ht⟩ := sum_head hsum
    refine ⟨(), t :: vs ++ closing :: rest, ⟨opening, hopening, by simp⟩, false, _,
      Or.inr ⟨rfl, rfl, ?_⟩, termsToBracket_complete hclosing (by omega) hsum⟩
    rintro t' us' h
    cases h
    exact ht

/-! ## Conditions -/

/-- The rule for an operand reads every operand, if the rule for the nested condition reads every
condition of that length. -/
theorem operand_complete {inner : Rule Condition} {n : Nat} {x : Operand}
    (hinner : ∀ {us c rest}, us.length ≤ n → Derives us (.condition c) →
      inner (us ++ rest) = .done c rest)
    (hlen : us.length ≤ n) (h : Derives us (.operand x)) :
    operand inner (us ++ rest) = .done x rest := by
  simp only [operand, bind_eq_done, current_eq_done]
  cases h with
  | @termOperand _ x hterm =>
    obtain ⟨t, rfl, ht, -⟩ := hterm.term_singleton
    refine ⟨t, t :: rest, ⟨rfl, rest, rfl⟩, ?_⟩
    have hstarts : t.startsCondition = false := by
      rw [← Bool.not_eq_true, Token.startsCondition_iff]
      simp [ht]
    simp only [hstarts, Bool.false_eq_true, if_false, bind_eq_done, term_iff_opens, pure_eq_done]
    exact ⟨x, rest, ⟨[t], rfl, hterm⟩, rfl, rfl⟩
  | @conditionOperand _ c hcondition =>
    obtain ⟨t, vs, rfl, ht⟩ := hcondition.condition_cons
    refine ⟨t, t :: vs ++ rest, ⟨rfl, vs ++ rest, rfl⟩, ?_⟩
    simp only [ht, if_true, bind_eq_done, pure_eq_done]
    exact ⟨c, rest, hinner hlen hcondition, rfl, rfl⟩

/-- The rule for conditions reads every condition, with fuel for its length. -/
theorem condition_complete :
    ∀ {us : List Token} {c : Condition} {rest : List Token}, us.length ≤ fuel →
      Derives us (.condition c) → condition fuel (us ++ rest) = .done c rest := by
  induction fuel with
  | zero =>
    intro us c rest hlen h
    obtain ⟨t, vs, rfl, -⟩ := h.condition_cons
    cases hlen
  | succ fuel ih =>
    -- the part after an optional exclamation mark
    have hplain : ∀ {ls rs rest : List Token} {sign : Token} {r : Relation} {left right : Operand},
        ls.length ≤ fuel → rs.length ≤ fuel → sign.isSymbol r.symbol = true →
        Derives ls (.operand left) → Derives rs (.operand right) → ∀ negated : Bool,
        (do
          let operator ← relation
          let left ← operand (condition fuel)
          let right ← operand (condition fuel)
          return (⟨negated, operator, left, right⟩ : Condition) : Rule Condition)
          (sign :: ls ++ rs ++ rest) = .done ⟨negated, r, left, right⟩ rest := by
      intro ls rs rest sign r left right hls hrs hsign hleft hright negated
      simp only [bind_eq_done, relation_eq_done, pure_eq_done]
      exact ⟨r, ls ++ (rs ++ rest), ⟨sign, hsign, by simp⟩, left, rs ++ rest,
        operand_complete ih hls hleft, right, rest, operand_complete ih hrs hright, rfl, rfl⟩
    intro us c rest hlen h
    rw [condition, bind_eq_done]
    simp only [skipSymbol_eq_done]
    cases h with
    | @relation ls rs sign r left right hsign hleft hright =>
      simp only [List.length_append, List.length_cons] at hlen
      refine ⟨false, _, Or.inr ⟨rfl, rfl, ?_⟩,
        hplain (by omega) (by omega) hsign hleft hright false⟩
      intro t vs hts
      cases hts
      exact Token.isSymbol_eq_false_of_ne hsign (by cases r <;> decide)
    | @negation ts bang r left right hbang hcondition =>
      cases hcondition with
      | @relation ls rs sign _ _ _ hsign hleft hright =>
        simp only [List.length_append, List.length_cons] at hlen
        exact ⟨true, _, Or.inl ⟨rfl, bang, hbang, rfl⟩,
          hplain (by omega) (by omega) hsign hleft hright true⟩

/-! ## Simple statements -/

/-- The rule for values reads every value. -/
theorem value_complete {given : Value} (hlen : us.length ≤ fuel) (h : Derives us (.value given)) :
    value fuel (us ++ rest) = .done given rest := by
  simp only [value, bind_eq_done, skipKeyword_eq_done]
  cases h with
  | @termValue _ x hterm =>
    obtain ⟨t, rfl, -, ht⟩ := hterm.term_singleton
    refine ⟨false, _, Or.inr ⟨rfl, rfl, ?_⟩, ?_⟩
    · intro t' vs hts
      cases hts
      exact ht _
    · simp only [Bool.false_eq_true, if_false, bind_eq_done, term_iff_opens, pure_eq_done]
      exact ⟨x, rest, ⟨[t], rfl, hterm⟩, rfl, rfl⟩
  | @inputValue ts word prompt hword hparams =>
    refine ⟨true, ts ++ rest, Or.inl ⟨rfl, word, hword, rfl⟩, ?_⟩
    simp only [if_true, bind_eq_done, pure_eq_done]
    exact ⟨prompt, rest, terms_complete (Nat.le_of_succ_le hlen) hparams, rfl, rfl⟩

/-- What is reported of the token after a simple statement. -/
def colonFault (next : Token) : List Diagnostic :=
  if next.isSymbol .colon then [] else [Expectation.blame (.symbol .colon) next]

/-- A token behind a simple statement stays where it is, and is blamed if it is not a colon. -/
theorem endOfSimple_cons (s : Statement) (next : Token) (rest : List Token) :
    endOfSimple s (next :: rest) = .done (s, colonFault next) (next :: rest) := by
  rw [endOfSimple, bind_eq_done]
  refine ⟨next, _, current_eq_done.2 ⟨rfl, rest, rfl⟩, ?_⟩
  rw [colonFault]
  split <;> exact pure_eq_done.2 ⟨rfl, rfl⟩

/-- The first token of a simple statement chooses a rule that reads the rest of it up to the next
token, which must be no operator that could still belong to it. -/
theorem simple_read (block : Rule Block) (rest : List Token) {s : Statement} {next : Token}
    (hlen : us.length ≤ fuel) (h : Derives us (.simple s)) (hnext : arithmetic? next = none) :
    ∃ t vs rule, us = t :: vs ∧ statement? fuel block t.kind = some rule ∧
      rule (vs ++ next :: rest) = .done (s, colonFault next) (next :: rest) := by
  cases h with
  | @output ts word shown hword hparams =>
    refine ⟨word, ts, output fuel, rfl, by rw [Token.isKeyword_iff.1 hword]; rfl, ?_⟩
    rw [output, bind_eq_done]
    exact ⟨shown, _, terms_complete (Nat.le_of_succ_le hlen) hparams, endOfSimple_cons ..⟩
  | @assignment vs ts sign target given hsign hvar hvalue =>
    simp only [List.length_append, List.length_cons] at hlen
    refine ⟨sign, vs ++ ts, assignment fuel, rfl, by rw [Token.isSymbol_iff.1 hsign]; rfl, ?_⟩
    simp only [assignment, bind_eq_done, var_iff_opens]
    refine ⟨target, ts ++ next :: rest, ⟨vs, by simp, hvar⟩, given, _,
      value_complete (by omega) hvalue, none, next :: rest, optional_eq_none.2 ⟨rfl, ?_⟩,
      endOfSimple_cons ..⟩
    intro t us hts
    cases hts
    exact hnext
  | @update vs ts sign final target given operator hsign hvar hvalue hfinal =>
    simp only [List.length_append, List.length_cons] at hlen
    refine ⟨sign, vs ++ ts ++ [final], assignment fuel, rfl,
      by rw [Token.isSymbol_iff.1 hsign]; rfl, ?_⟩
    simp only [assignment, bind_eq_done, var_iff_opens]
    exact ⟨target, ts ++ final :: next :: rest, ⟨vs, by simp, hvar⟩, given,
      final :: next :: rest, value_complete (by omega) hvalue, some operator, next :: rest,
      optional_eq_some.2 ⟨final, rfl, arithmetic?_eq_some.2 hfinal⟩, endOfSimple_cons ..⟩

theorem arithmetic?_colon {colon : Token} (h : colon.isSymbol .colon = true) :
    arithmetic? colon = none := by
  simp [arithmetic?, Token.isSymbol_iff.1 h, Arithmetic.ofSymbol?]

/-- Up to a colon there is nothing to report. -/
theorem simple_complete (block : Rule Block) (rest : List Token) {s : Statement} {colon : Token}
    (hlen : us.length ≤ fuel) (h : Derives us (.simple s)) (hcolon : colon.isSymbol .colon = true) :
    ∃ t vs rule, us = t :: vs ∧ statement? fuel block t.kind = some rule ∧
      rule (vs ++ colon :: rest) = .done (s, []) (colon :: rest) := by
  have hread := simple_read block rest hlen h (arithmetic?_colon hcolon)
  rwa [colonFault, if_pos hcolon] at hread

/-! ## Compound statements -/

section Parts

variable {block : Rule Block} {ts mid : List Token} {body : Block} {test : Condition}
variable {word closing : Token}

/-! A compound statement is read if its parts are, one after another. Its blocks need not be free of
diagnostics: those that they have are handed on. -/

theorem doBlock_of_parts {opening : Token} (hopening : opening.isKeyword .DO = true)
    (hbody : block ts = .done body rest) : doBlock block (opening :: ts) = .done body rest := by
  rw [doBlock, bind_eq_done]
  exact ⟨(), ts, keyword_eq_done.2 ⟨opening, hopening, rfl⟩, hbody⟩

theorem whileLoop_of_parts (htest : condition fuel ts = .done test mid)
    (hbody : doBlock block mid = .done body (closing :: rest))
    (hclosing : closing.isKeyword .ENDWHEN = true) :
    whileLoop fuel block ts = .done (.whileLoop test body, body.diagnostics) rest := by
  simp only [whileLoop, bind_eq_done, after_eq_done, keyword_eq_done, pure_eq_done]
  exact ⟨test, mid, htest, body, _, hbody, (), rest, ⟨closing, hclosing, rfl⟩, rfl, rfl⟩

theorem untilLoop_of_parts {middle : Token} (hbody : doBlock block ts = .done body (middle :: mid))
    (hmiddle : middle.isKeyword .UNTIL = true)
    (htest : condition fuel mid = .done test (closing :: rest))
    (hclosing : closing.isKeyword .ENDREPEAT = true) :
    untilLoop fuel block ts = .done (.untilLoop body test, body.diagnostics) rest := by
  simp only [untilLoop, bind_eq_done, after_eq_done, keyword_eq_done, pure_eq_done]
  exact ⟨body, _, hbody, (), mid, ⟨middle, hmiddle, rfl⟩, test, _, htest, (), rest,
    ⟨closing, hclosing, rfl⟩, rfl, rfl⟩

theorem forLoop_of_parts {vs as os ss : List Token} {first last size : Token} {counter : Variable}
    {start stop step : Binary64} (hvar : Derives vs (.var counter))
    (hfirst : first.isKeyword .FROM = true) (hstart : Derives as (.number start))
    (hlast : last.isKeyword .TO = true) (hstop : Derives os (.number stop))
    (hsize : size.isKeyword .BY = true) (hstep : Derives ss (.number step))
    (hzero : step.isZero = false) (hbody : doBlock block ts = .done body (closing :: rest))
    (hclosing : closing.isKeyword .ENDFOR = true) :
    forLoop block (vs ++ first :: as ++ last :: os ++ size :: ss ++ ts) =
      .done (.forLoop counter start stop step body, body.diagnostics) rest := by
  simp only [forLoop, bind_eq_done, after_eq_done, keyword_eq_done, var_iff_opens,
    number_iff_opens, step_iff_opens, pure_eq_done, List.append_assoc]
  exact ⟨counter, _, ⟨vs, rfl, hvar⟩, (), _, ⟨first, hfirst, rfl⟩, start, _, ⟨as, rfl, hstart⟩,
    (), _, ⟨last, hlast, rfl⟩, stop, _, ⟨os, rfl, hstop⟩, (), _, ⟨size, hsize, rfl⟩, step, ts,
    ⟨⟨ss, rfl, hstep⟩, hzero⟩, body, _, hbody, (), rest, ⟨closing, hclosing, rfl⟩, rfl, rfl⟩

theorem otherBranches_end (hclosing : closing.isKeyword .ENDIF = true) :
    otherBranches block (fuel + 1) (closing :: rest) = .done ([], []) rest := by
  simp only [otherBranches, bind_eq_done, skipKeyword_eq_done]
  refine ⟨false, closing :: rest, Or.inr ⟨rfl, rfl, ?_⟩, ?_⟩
  · intro t vs hts
    cases hts
    exact Token.isKeyword_eq_false_of_ne hclosing (by decide)
  · simp only [Bool.false_eq_true, if_false, bind_eq_done, keyword_eq_done, pure_eq_done]
    exact ⟨(), rest, ⟨closing, hclosing, rfl⟩, trivial, rfl⟩

theorem otherBranches_last {opening : Token} (hword : word.isKeyword .OTHERWISE = true)
    (hopening : opening.isKeyword .DO = true)
    (hbody : doBlock block (opening :: ts) = .done body (closing :: rest))
    (hclosing : closing.isKeyword .ENDIF = true) :
    otherBranches block (fuel + 1) (word :: opening :: ts) =
      .done ([(none, body)], body.diagnostics) rest := by
  simp only [otherBranches, bind_eq_done, skipKeyword_eq_done]
  refine ⟨true, opening :: ts, Or.inl ⟨rfl, word, hword, rfl⟩, ?_⟩
  simp only [if_true, bind_eq_done, skipKeyword_eq_done]
  -- no condition is looked for, because the body begins with a keyword other than IF
  refine ⟨false, _, Or.inr ⟨rfl, rfl, ?_⟩, ?_⟩
  · intro t vs hts
    cases hts
    exact Token.isKeyword_eq_false_of_ne hopening (by decide)
  · simp only [Bool.false_eq_true, if_false, bind_eq_done, after_eq_done, keyword_eq_done,
      pure_eq_done]
    exact ⟨body, _, hbody, (), rest, ⟨closing, hclosing, rfl⟩, rfl, rfl⟩

theorem otherBranches_next {mid' : List Token} {again : Token}
    {others : List (Option Condition × Block)} {found : List Diagnostic}
    (hword : word.isKeyword .OTHERWISE = true) (hagain : again.isKeyword .IF = true)
    (htest : condition fuel ts = .done test mid) (hbody : doBlock block mid = .done body mid')
    (hothers : otherBranches block fuel mid' = .done (others, found) rest) :
    otherBranches block (fuel + 1) (word :: again :: ts) =
      .done ((some test, body) :: others, body.diagnostics ++ found) rest := by
  simp only [otherBranches, bind_eq_done, skipKeyword_eq_done]
  refine ⟨true, again :: ts, Or.inl ⟨rfl, word, hword, rfl⟩, ?_⟩
  simp only [if_true, bind_eq_done, skipKeyword_eq_done]
  refine ⟨true, ts, Or.inl ⟨rfl, again, hagain, rfl⟩, ?_⟩
  simp only [if_true, bind_eq_done, after_eq_done, pure_eq_done]
  exact ⟨test, mid, htest, body, mid', hbody, (others, found), rest, hothers, rfl, rfl⟩

theorem choice_of_parts {mid' : List Token} {others : List (Option Condition × Block)}
    {found : List Diagnostic} (htest : condition fuel ts = .done test mid)
    (hbody : doBlock block mid = .done body mid')
    (hothers : otherBranches block fuel mid' = .done (others, found) rest) :
    choice fuel block ts =
      .done (.choice ((some test, body) :: others), body.diagnostics ++ found) rest := by
  simp only [choice, bind_eq_done, after_eq_done, pure_eq_done]
  exact ⟨test, mid, htest, body, mid', hbody, (others, found), rest, hothers, rfl, rfl⟩

theorem arms_end (hclosing : closing.isKeyword .ENDSWITCH = true) :
    arms block (fuel + 1) (closing :: rest) = .done ([], []) rest := by
  simp only [arms, bind_eq_done, skipKeyword_eq_done]
  exact ⟨true, rest, Or.inl ⟨rfl, closing, hclosing, rfl⟩, pure_eq_done.2 ⟨rfl, rfl⟩⟩

theorem arms_next {ls : List Token} {label : Literal} {others : List (Literal × Block)}
    {found : List Diagnostic} (hword : word.isKeyword .WHEN = true)
    (hlabel : Derives ls (.literal label)) (hbody : doBlock block ts = .done body mid)
    (hothers : arms block fuel mid = .done (others, found) rest) :
    arms block (fuel + 1) (word :: ls ++ ts) =
      .done ((label, body) :: others, body.diagnostics ++ found) rest := by
  simp only [arms, bind_eq_done, skipKeyword_eq_done]
  refine ⟨false, _, Or.inr ⟨rfl, rfl, ?_⟩, ?_⟩
  · intro t vs hts
    cases hts
    exact Token.isKeyword_eq_false_of_ne hword (by decide)
  · simp only [Bool.false_eq_true, if_false, bind_eq_done, after_eq_done, keyword_eq_done,
      literal_iff_opens, pure_eq_done]
    exact ⟨(), ls ++ ts, ⟨word, hword, rfl⟩, label, ts, ⟨ls, rfl, hlabel⟩, body, mid, hbody,
      (others, found), rest, hothers, rfl, rfl⟩

theorem switch_of_parts {vs : List Token} {subject : Variable} {choices : List (Literal × Block)}
    {found : List Diagnostic} (hvar : Derives vs (.var subject))
    (harms : arms block fuel ts = .done (choices, found) rest) :
    switch fuel block (vs ++ ts) = .done (.switch subject choices, found) rest := by
  simp only [switch, bind_eq_done, var_iff_opens, pure_eq_done]
  exact ⟨subject, ts, ⟨vs, rfl, hvar⟩, (choices, found), rest, harms, rfl, rfl⟩

end Parts

/-- What the rules for statements need of the rule for a block: it reads all items up to the keyword
that closes them, if there are fewer than `n` tokens before it. -/
def CompleteBlock (block : Rule Block) (close : Keyword) (n : Nat) : Prop :=
  ∀ {us ss closing rest}, us.length < n → Derives us (.items ss) →
    closing.isKeyword close = true → block (us ++ closing :: rest) = .done (.mk ss []) rest

section Compound

variable {block : Rule Block} {s : Statement}

/-- The rule for a block in a statement reads every such block. -/
theorem doBlock_complete {b : Block} {n : Nat} (hblock : CompleteBlock block .ENDDO n)
    (hlen : us.length ≤ n) (h : Derives us (.doBlock b)) :
    doBlock block (us ++ rest) = .done b rest := by
  cases h with
  | @doBlock ts opening closing ss hopening hitems hclosing =>
    simp only [List.length_append, List.length_cons, List.length_nil] at hlen
    rw [List.append_assoc, List.cons_append]
    exact doBlock_of_parts hopening (hblock (by omega) hitems hclosing)

/-- The rule for further branches reads every chain of them up to its `ENDIF`. -/
theorem otherBranches_complete {n : Nat} (hblock : CompleteBlock block .ENDDO n) :
    ∀ {us : List Token} {others : List (Option Condition × Block)} {closing : Token},
      us.length < fuel → us.length ≤ n → Derives us (.branches others) →
      closing.isKeyword .ENDIF = true →
      otherBranches block fuel (us ++ closing :: rest) = .done (others, []) rest := by
  induction fuel with
  | zero =>
    intro us others closing hlen
    cases hlen
  | succ fuel ih =>
    intro us others closing hlen hlen' h hclosing
    cases h with
    | noBranch => exact otherBranches_end hclosing
    | @lastBranch bs word body hword hbody =>
      simp only [List.length_cons] at hlen hlen'
      have hread : doBlock block (bs ++ closing :: rest) = .done body (closing :: rest) :=
        doBlock_complete hblock (by omega) hbody
      obtain ⟨opening, ws, rfl, hopening⟩ := hbody.doBlock_cons
      simpa [hbody.doBlock_diagnostics] using otherBranches_last hword hopening hread hclosing
    | @nextBranch cs bs os word again test body others hword hagain htest hbody hothers =>
      simp only [List.length_append, List.length_cons] at hlen hlen'
      have hothers' := ih (by omega) (by omega) hothers hclosing
      have hbody' : doBlock block (bs ++ (os ++ closing :: rest))
          = .done body (os ++ closing :: rest) :=
        doBlock_complete hblock (by omega) hbody
      have htest' : condition fuel (cs ++ (bs ++ (os ++ closing :: rest))) = .done test _ :=
        condition_complete (by omega) htest
      simpa [hbody.doBlock_diagnostics] using otherBranches_next hword hagain htest' hbody' hothers'

/-- The rule for arms reads all of them up to their `ENDSWITCH`. -/
theorem arms_complete {n : Nat} (hblock : CompleteBlock block .ENDDO n) :
    ∀ {us : List Token} {choices : List (Literal × Block)} {closing : Token},
      us.length < fuel → us.length ≤ n → Derives us (.arms choices) →
      closing.isKeyword .ENDSWITCH = true →
      arms block fuel (us ++ closing :: rest) = .done (choices, []) rest := by
  induction fuel with
  | zero =>
    intro us choices closing hlen
    cases hlen
  | succ fuel ih =>
    intro us choices closing hlen hlen' h hclosing
    cases h with
    | noArm => exact arms_end hclosing
    | @nextArm ls bs as word label body choices hword hlabel hbody harms =>
      simp only [List.length_append, List.length_cons] at hlen hlen'
      have harms' := ih (by omega) (by omega) harms hclosing
      have hbody' : doBlock block (bs ++ (as ++ closing :: rest))
          = .done body (as ++ closing :: rest) :=
        doBlock_complete hblock (by omega) hbody
      simpa [hbody.doBlock_diagnostics] using arms_next hword hlabel hbody' harms'

/-- The first token of a compound statement chooses a rule that reads the rest of it. -/
theorem compound_complete (rest : List Token) (hblock : CompleteBlock block .ENDDO fuel)
    (hlen : us.length ≤ fuel) (h : Derives us (.compound s)) :
    ∃ t vs rule, us = t :: vs ∧ statement? fuel block t.kind = some rule ∧
      rule (vs ++ rest) = .done (s, []) rest := by
  cases h with
  | @whileLoop cs bs word closing test body hword htest hbody hclosing =>
    simp only [List.length_append, List.length_cons] at hlen
    refine ⟨word, cs ++ bs ++ [closing], whileLoop fuel block, rfl,
      by rw [Token.isKeyword_iff.1 hword]; rfl, ?_⟩
    have hbody' : doBlock block (bs ++ closing :: rest) = .done body (closing :: rest) :=
      doBlock_complete hblock (by omega) hbody
    have htest' : condition fuel (cs ++ (bs ++ closing :: rest)) = .done test _ :=
      condition_complete (by omega) htest
    simpa [hbody.doBlock_diagnostics] using whileLoop_of_parts htest' hbody' hclosing
  | @untilLoop bs cs word middle closing body test hword hbody hmiddle htest hclosing =>
    simp only [List.length_append, List.length_cons] at hlen
    refine ⟨word, bs ++ middle :: cs ++ [closing], untilLoop fuel block, rfl,
      by rw [Token.isKeyword_iff.1 hword]; rfl, ?_⟩
    have htest' : condition fuel (cs ++ closing :: rest) = .done test (closing :: rest) :=
      condition_complete (by omega) htest
    have hbody' : doBlock block (bs ++ middle :: (cs ++ closing :: rest)) = .done body _ :=
      doBlock_complete hblock (by omega) hbody
    simpa [hbody.doBlock_diagnostics] using untilLoop_of_parts hbody' hmiddle htest' hclosing
  | @forLoop vs as os ss bs word first last size closing counter start stop step body hword hvar
      hfirst hstart hlast hstop hsize hstep hzero hbody hclosing =>
    simp only [List.length_append, List.length_cons] at hlen
    refine ⟨word, vs ++ first :: as ++ last :: os ++ size :: ss ++ bs ++ [closing],
      forLoop block, rfl, by rw [Token.isKeyword_iff.1 hword]; rfl, ?_⟩
    have hbody' : doBlock block (bs ++ closing :: rest) = .done body (closing :: rest) :=
      doBlock_complete hblock (by omega) hbody
    simpa [hbody.doBlock_diagnostics] using
      forLoop_of_parts hvar hfirst hstart hlast hstop hsize hstep hzero hbody' hclosing
  | @choice cs bs os word closing test body others hword htest hbody hothers hclosing =>
    simp only [List.length_append, List.length_cons] at hlen
    refine ⟨word, cs ++ bs ++ os ++ [closing], choice fuel block, rfl,
      by rw [Token.isKeyword_iff.1 hword]; rfl, ?_⟩
    have hothers' : otherBranches block fuel (os ++ closing :: rest) = .done (others, []) rest :=
      otherBranches_complete hblock (by omega) (by omega) hothers hclosing
    have hbody' : doBlock block (bs ++ (os ++ closing :: rest))
        = .done body (os ++ closing :: rest) :=
      doBlock_complete hblock (by omega) hbody
    have htest' : condition fuel (cs ++ (bs ++ (os ++ closing :: rest))) = .done test _ :=
      condition_complete (by omega) htest
    simpa [hbody.doBlock_diagnostics] using choice_of_parts htest' hbody' hothers'
  | @switch vs as word closing subject choices hword hvar harms hclosing =>
    simp only [List.length_append, List.length_cons] at hlen
    refine ⟨word, vs ++ as ++ [closing], switch fuel block, rfl,
      by rw [Token.isKeyword_iff.1 hword]; rfl, ?_⟩
    have harms' : arms block fuel (as ++ closing :: rest) = .done (choices, []) rest :=
      arms_complete hblock (by omega) (by omega) harms hclosing
    simpa using switch_of_parts hvar harms'

end Compound

/-! ## Blocks -/

/-- A token that chooses a rule for a statement is no colon and closes no block. -/
theorem statement?_eq_some_token {block : Rule Block} {t : Token} {close : Keyword}
    {rule : Rule (Reported Statement)} (hclose : close.isCloser = true)
    (h : statement? fuel block t.kind = some rule) :
    t.isKeyword close = false ∧ t.isSymbol .colon = false := by
  rw [statement?.eq_def] at h
  split at h <;> cases h
  all_goals
    rename_i hk
    refine ⟨?_, by simp [Token.isSymbol, hk]⟩
    cases close <;> simp_all [Token.isKeyword, Keyword.isCloser]

/-- One turn of a block that reads a statement. -/
theorem block_statement {close : Keyword} {t : Token} {ts mid : List Token} {s : Statement}
    {found : List Diagnostic} {rule : Rule (Reported Statement)} (hclose : close.isCloser = true)
    (hrule : statement? fuel (block fuel .ENDDO false) t.kind = some rule)
    (hdone : rule ts = .done (s, found) mid) :
    block (fuel + 1) close false (t :: ts) = (block fuel close false mid).prepend [s] found := by
  obtain ⟨hkeyword, hcolon⟩ := statement?_eq_some_token hclose hrule
  simp only [block_cons, hkeyword, hcolon, Bool.false_and, Bool.false_eq_true, if_false, hrule,
    hdone]

/-- One turn of a block that passes over a colon. -/
theorem block_colon {close : Keyword} {skipping : Bool} {colon : Token} {ts : List Token}
    (hcolon : colon.isSymbol .colon = true) :
    block (fuel + 1) close skipping (colon :: ts) = block fuel close false ts := by
  simp [block_cons, Token.isKeyword_eq_false_of_isSymbol hcolon, hcolon]

/-- A block that is at `ts` with some fuel gets to `rest` with what is `left` of it and nothing to
skip there, and has found `ss` and `ds` on the way. It has spent no more fuel than tokens. -/
structure Reaches (close : Keyword) (fuel : Nat) (skipping : Bool) (ts : List Token) (left : Nat)
    (rest : List Token) (ss : List Statement) (ds : List Diagnostic) : Prop where
  left_le : left ≤ fuel
  covered : fuel + rest.length ≤ left + ts.length
  block_eq : block fuel close skipping ts = (block left close false rest).prepend ss ds

namespace Reaches

variable {close : Keyword} {skipping skipping' : Bool} {left left' : Nat} {ts mid : List Token}
variable {ss ss' : List Statement} {ds ds' : List Diagnostic}

theorem refl : Reaches close fuel false ts fuel ts [] [] :=
  ⟨Nat.le_refl fuel, Nat.le_refl _, Outcome.prepend_nil.symm⟩

/-- A block that reaches a point, and from there another one, reaches that one with the statements
of both stretches. -/
theorem trans (h : Reaches close fuel skipping ts left mid ss ds)
    (hnext : Reaches close left false mid left' rest ss' ds') :
    Reaches close fuel skipping ts left' rest (ss ++ ss') (ds ++ ds') where
  left_le := Nat.le_trans hnext.left_le h.left_le
  covered := by
    have := h.covered
    have := hnext.covered
    omega
  block_eq := by rw [h.block_eq, hnext.block_eq, Outcome.prepend_prepend]

/-- One turn, which takes at least one token, and the way from there. -/
theorem head (hlen : mid.length < ts.length)
    (hturn : block (fuel + 1) close skipping ts = (block fuel close skipping' mid).prepend ss ds)
    (h : Reaches close fuel skipping' mid left rest ss' ds') :
    Reaches close (fuel + 1) skipping ts left rest (ss ++ ss') (ds ++ ds') where
  left_le := Nat.le_succ_of_le h.left_le
  covered := by
    have := h.covered
    omega
  block_eq := by rw [hturn, h.block_eq, Outcome.prepend_prepend]

/-- A turn in which nothing is found. -/
theorem pass (hlen : mid.length < ts.length)
    (hturn : block (fuel + 1) close skipping ts = block fuel close skipping' mid)
    (h : Reaches close fuel skipping' mid left rest ss ds) :
    Reaches close (fuel + 1) skipping ts left rest ss ds :=
  .head hlen (hturn.trans Outcome.prepend_nil.symm) h

/-- The block is read if it gets to the keyword that closes it. -/
theorem done {closing : Token} (h : Reaches close fuel skipping ts left (closing :: rest) ss ds)
    (hlen : ts.length ≤ fuel + rest.length) (hclosing : closing.isKeyword close = true) :
    block fuel close skipping ts = .done (.mk ss ds) rest := by
  have hcovered := h.covered
  rw [List.length_cons] at hcovered
  obtain ⟨left, rfl⟩ := Nat.exists_eq_add_one_of_ne_zero (show left ≠ 0 by omega)
  rw [h.block_eq]
  simp [block_cons, hclosing, Outcome.prepend, Block.statements, Block.diagnostics]

end Reaches

/-- A block gets past items, whatever follows them, if it reads the blocks inside them. -/
theorem exists_reaches_of_items {close : Keyword} (hclose : close.isCloser = true) :
    ∀ {us : List Token} {ss : List Statement},
      (∀ n, n < fuel → CompleteBlock (block n .ENDDO false) .ENDDO n) → us.length < fuel →
      Derives us (.items ss) → ∃ left, Reaches close fuel false (us ++ rest) left rest ss [] := by
  induction fuel with
  | zero =>
    intro us ss _ hlen
    cases hlen
  | succ fuel ih =>
    intro us ss hinner hlen h
    have hinner' : ∀ n, n < fuel → CompleteBlock (block n .ENDDO false) .ENDDO n :=
      fun n hn => hinner n (Nat.lt_succ_of_lt hn)
    cases h with
    | noItem => exact ⟨_, .refl⟩
    | @colonItem ts colon _ hcolon hitems =>
      obtain ⟨left, hnext⟩ := ih hinner' (Nat.lt_of_succ_lt_succ hlen) hitems
      exact ⟨left, .pass (by simp) (block_colon hcolon) hnext⟩
    | @simpleItem ws ts colon s ss hsimple hcolon hitems =>
      simp only [List.length_append, List.length_cons] at hlen
      have hws : ws.length ≤ fuel := by omega
      -- the rule leaves the colon in place, and the block reads it as an item of its own
      obtain ⟨t, vs, rule, rfl, hrule, hdone⟩ :=
        simple_complete (block fuel .ENDDO false) (ts ++ rest) hws hsimple hcolon
      have hts : (colon :: ts).length < fuel := by
        simp only [List.length_cons] at hlen ⊢
        omega
      obtain ⟨left, hnext⟩ := ih hinner' hts (.colonItem hcolon hitems)
      rw [List.append_assoc, List.cons_append, List.cons_append]
      have hless : (colon :: ts ++ rest).length < (t :: (vs ++ colon :: (ts ++ rest))).length := by
        simp only [List.length_append, List.length_cons]
        omega
      exact ⟨left, .head hless (block_statement hclose hrule hdone) hnext⟩
    | @compoundItem ws ts s ss hcompound hitems =>
      simp only [List.length_append] at hlen
      have hws : ws.length ≤ fuel := by omega
      obtain ⟨t, vs, rule, rfl, hrule, hdone⟩ :=
        compound_complete (ts ++ rest) (hinner fuel (Nat.lt_succ_self fuel)) hws hcompound
      have hts : ts.length < fuel := by
        simp only [List.length_cons] at hlen
        omega
      obtain ⟨left, hnext⟩ := ih hinner' hts hitems
      rw [List.append_assoc, List.cons_append]
      have hless : (ts ++ rest).length < (t :: (vs ++ (ts ++ rest))).length := by
        simp only [List.length_append, List.length_cons]
        omega
      exact ⟨left, .head hless (block_statement hclose hrule hdone) hnext⟩

/-- Items are read up to the keyword that closes their block. -/
theorem block_complete : ∀ {close : Keyword}, close.isCloser = true →
    CompleteBlock (block fuel close false) close fuel := by
  induction fuel using Nat.strongRecOn with
  | ind fuel ih =>
    intro close hclose us ss closing rest hlen h hclosing
    obtain ⟨left, hreaches⟩ := exists_reaches_of_items hclose (fun n hn => ih n hn rfl) hlen h
    have hlen' : (us ++ closing :: rest).length ≤ fuel + rest.length := by
      simp only [List.length_append, List.length_cons]
      omega
    exact hreaches.done hlen' hclosing

/-- A block reaches the end of every list of items, and has read these items. -/
theorem reaches_items (fuel : Nat) (rest : List Token) {close : Keyword} {ss : List Statement}
    (hclose : close.isCloser = true) (hlen : us.length < fuel) (h : Derives us (.items ss)) :
    ∃ left, Reaches close fuel false (us ++ rest) left rest ss [] :=
  exists_reaches_of_items hclose (fun _ _ => block_complete rfl) hlen h

end Rule

/-! ## Programs -/

namespace Reading

/-- Nothing is reported behind the end exactly if nothing stands there. -/
theorem trailing_eq_nil {ts : List Token} : trailing ts = [] ↔ ts = [] := by
  cases ts <;> simp [trailing]

/-- What is read without a fault is derived by the grammar. -/
theorem derives_of_ofTokens_eq {ts : List Token} {p : Program}
    (h : ofTokens ts = ⟨some p, p.name, [], false⟩) : Derives ts (.program p) := by
  rw [ofTokens] at h
  split at h
  case h_1 name rest hheader =>
    obtain ⟨opening, title, hopening, htitle, rfl⟩ := Rule.header_eq_done.1 hheader
    rw [ofBody] at h
    split at h
    case h_1 body rest' hbody =>
      simp only [Reading.mk.injEq, Option.some.injEq, List.append_eq_nil_iff] at h
      obtain ⟨rfl, -, ⟨hnil, htrailing⟩, -⟩ := h
      obtain rfl := trailing_eq_nil.1 htrailing
      obtain ⟨us, closing, rfl, hus, hclosing⟩ := Rule.block_sound hbody hnil
      rw [Block.eq_mk_nil hnil]
      exact .program hopening htitle hus hclosing
    case h_2 => simp at h
    case h_3 => simp at h
    case h_4 => simp at h
  case h_2 => simp at h
  case h_3 => simp at h
  case h_4 => simp at h

/-- What the grammar derives is read without a fault. -/
theorem ofTokens_eq_of_derives {ts : List Token} {p : Program} (h : Derives ts (.program p)) :
    ofTokens ts = ⟨some p, p.name, [], false⟩ := by
  cases h with
  | @program us opening title closing name ss hopening htitle hitems hclosing =>
    have hheader : Rule.header (opening :: title :: us ++ [closing])
        = .done name (us ++ [closing]) :=
      Rule.header_eq_done.2 ⟨opening, title, hopening, htitle, rfl⟩
    have hbody : Rule.block ((us ++ [closing]).length + 1) .ENDPROG false (us ++ [closing]) =
        .done (.mk ss []) [] :=
      Rule.block_complete rfl (by simp only [List.length_append]; omega) hitems hclosing
    simp only [ofTokens, hheader, ofBody, hbody]
    rfl

/-- Reading accepts exactly what the grammar derives as a program and gives the derived program, and
the grammar is unambiguous. -/
theorem ofTokens_eq_iff_derives (ts : List Token) :
    (∀ p : Program, ofTokens ts = ⟨some p, p.name, [], false⟩ ↔ Derives ts (.program p)) ∧
      ∀ p q : Program, Derives ts (.program p) → Derives ts (.program q) → p = q := by
  refine ⟨fun p => ⟨derives_of_ofTokens_eq, ofTokens_eq_of_derives⟩, fun p q hp hq => ?_⟩
  have h := (ofTokens_eq_of_derives hp).symm.trans (ofTokens_eq_of_derives hq)
  exact Option.some.inj (congrArg Reading.program h)

end Reading

end Zed
