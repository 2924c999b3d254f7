import Zed.Proofs.Grammar.Reads
import Zed.Proofs.Grammar.Recovery

/-!
# What is read is derived

One pass over the rules of the grammar, which says of each of them what it reads: the tokens that it
used are derived as its value, or recovered as its value where there is a block inside, with exactly
the diagnostics that were made. The rules for statements take the rule for a block as an argument;
what they need of it is `BlockReads`, and `block_reads` closes the circle by induction on the fuel.

Everything else that holds of what is read follows from this by induction on derivations. The first
example is `block_sound`: a block without diagnostics is derived.
-/

set_option autoImplicit false

namespace Zed

/-- A symbol stands for at most one relation, and each relation has its symbol. -/
theorem Relation.ofSymbol?_eq_some {sign : Symbol} {r : Relation} :
    Relation.ofSymbol? sign = some r ↔ sign = r.symbol := by
  cases sign <;> cases r <;> decide

/-- A symbol stands for at most one operator, and each operator has its symbol. -/
theorem Arithmetic.ofSymbol?_eq_some {sign : Symbol} {operator : Arithmetic} :
    Arithmetic.ofSymbol? sign = some operator ↔ sign = operator.symbol := by
  cases sign <;> cases operator <;> decide

theorem Token.relation?_eq_some {t : Token} {r : Relation} :
    t.relation? = some r ↔ t.isSymbol r.symbol = true := by
  rw [Token.isSymbol_iff, Token.relation?]
  cases t.kind with
  | symbol sign => simp [Relation.ofSymbol?_eq_some]
  | _ => simp

/-- A block without diagnostics is given by its statements. -/
theorem Block.eq_mk_nil {b : Block} (h : b.diagnostics = []) : b = .mk b.statements [] := by
  obtain ⟨ss, ds⟩ := b
  cases h
  rfl

namespace Rule

variable {ts rest : List Token}

theorem arithmetic?_eq_some {t : Token} {operator : Arithmetic} :
    arithmetic? t = some operator ↔ t.isSymbol operator.symbol = true := by
  rw [Token.isSymbol_iff, arithmetic?]
  cases t.kind with
  | symbol sign => simp [Arithmetic.ofSymbol?_eq_some]
  | _ => simp

/-! ## Single tokens -/

/-- A numeral is accepted exactly if it spells a finite number. -/
theorem finiteNumber_eq_ok {spelling : String} {x : Binary64} :
    finiteNumber spelling = .ok x ↔ Binary64.ofSpelling? spelling = some x := by
  rw [finiteNumber]
  cases Binary64.ofSpelling? spelling <;> simp

theorem map_finiteNumber_eq_ok {α : Type} {f : Binary64 → α} {spelling : String} {a : α} :
    (finiteNumber spelling).map f = .ok a ↔
      ∃ x, Binary64.ofSpelling? spelling = some x ∧ f x = a := by
  rw [finiteNumber]
  cases Binary64.ofSpelling? spelling <;> simp [Except.map]

/-- A rule for a single token is done exactly on the tokens that `accept` takes. -/
theorem take_iff_opens {α : Type} {accept : Token → Except Expectation α} {phrase : Phrase} {a : α}
    (hok : ∀ t, accept t = .ok a → Derives [t] phrase)
    (hderives : ∀ us, Derives us phrase → ∃ t, us = [t] ∧ accept t = .ok a) :
    take accept ts = .done a rest ↔ phrase.Opens ts rest := by
  rw [take_eq_done]
  constructor
  · rintro ⟨t, rfl, ht⟩
    exact ⟨[t], rfl, hok t ht⟩
  · rintro ⟨us, rfl, hus⟩
    obtain ⟨t, rfl, ht⟩ := hderives us hus
    exact ⟨t, rfl, ht⟩

/-- The rule for a variable reads exactly the variables of the grammar. -/
theorem var_iff_opens {v : Variable} :
    var ts = .done v rest ↔ (Phrase.var v).Opens ts rest := by
  refine take_iff_opens (fun t ht => ?_) (fun us hus => ?_)
  · split at ht
    case h_1 name hk =>
      cases ht
      exact .var hk
    case h_2 => cases ht
  · cases hus with
    | @var t name hk => exact ⟨t, rfl, by simp [hk]⟩

/-- The rule for a number reads exactly the numbers of the grammar. -/
theorem number_iff_opens {x : Binary64} :
    number ts = .done x rest ↔ (Phrase.number x).Opens ts rest := by
  refine take_iff_opens (fun t ht => ?_) (fun us hus => ?_)
  · split at ht
    case h_1 spelling hk => exact .number hk (finiteNumber_eq_ok.1 ht)
    case h_2 => cases ht
  · cases hus with
    | @number t spelling _ hk hx => exact ⟨t, rfl, by simp [hk, finiteNumber_eq_ok, hx]⟩

/-- The rule for a literal reads exactly the literals of the grammar. -/
theorem literal_iff_opens {l : Literal} :
    literal ts = .done l rest ↔ (Phrase.literal l).Opens ts rest := by
  refine take_iff_opens (fun t ht => ?_) (fun us hus => ?_)
  · split at ht
    case h_1 body hk =>
      cases ht
      exact .textLiteral hk
    case h_2 spelling hk =>
      obtain ⟨x, hx, rfl⟩ := map_finiteNumber_eq_ok.1 ht
      exact .numberLiteral (.number hk hx)
    case h_3 => cases ht
  · cases hus with
    | @textLiteral t body hk => exact ⟨t, rfl, by simp [hk]⟩
    | numberLiteral hnumber =>
      cases hnumber with
      | @number t spelling _ hk hx =>
        exact ⟨t, rfl, by simp [hk, map_finiteNumber_eq_ok, hx]⟩

/-- The rule for a term reads exactly the terms of the grammar. -/
theorem term_iff_opens {x : Term} :
    term ts = .done x rest ↔ (Phrase.term x).Opens ts rest := by
  refine take_iff_opens (fun t ht => ?_) (fun us hus => ?_)
  · split at ht
    case h_1 name hk =>
      cases ht
      exact .varTerm (.var hk)
    case h_2 body hk =>
      cases ht
      exact .textTerm hk
    case h_3 spelling hk =>
      obtain ⟨x, hx, rfl⟩ := map_finiteNumber_eq_ok.1 ht
      exact .numberTerm (.number hk hx)
    case h_4 => cases ht
  · cases hus with
    | varTerm hvar =>
      cases hvar with
      | @var t name hk => exact ⟨t, rfl, by simp [hk]⟩
    | @textTerm t body hk => exact ⟨t, rfl, by simp [hk]⟩
    | numberTerm hnumber =>
      cases hnumber with
      | @number t spelling _ hk hx =>
        exact ⟨t, rfl, by simp [hk, map_finiteNumber_eq_ok, hx]⟩

/-- A list of terms goes on behind a plus sign, and is over behind a bracket. -/
theorem listGoesOn_eq_done {more : Bool} :
    listGoesOn ts = .done more rest ↔
      ∃ t, t.isSymbol (if more then .plus else .closeBracket) = true ∧ ts = t :: rest := by
  rw [listGoesOn, take_eq_done]
  constructor
  · rintro ⟨t, hts, ht⟩
    refine ⟨t, ?_, hts⟩
    by_cases hclose : t.isSymbol .closeBracket = true
    · simp only [hclose, if_true, Except.ok.injEq] at ht
      subst ht
      exact hclose
    · by_cases hplus : t.isSymbol .plus = true
      · simp only [hclose, hplus, if_true, Bool.false_eq_true, if_false, Except.ok.injEq] at ht
        subst ht
        exact hplus
      · simp [hclose, hplus] at ht
  · rintro ⟨t, ht, hts⟩
    refine ⟨t, hts, ?_⟩
    cases more with
    | false => simp_all
    | true =>
      have hk := Token.isSymbol_iff.1 ht
      simp [Token.isSymbol, hk]

theorem relation_eq_done {r : Relation} :
    relation ts = .done r rest ↔ ∃ t, t.isSymbol r.symbol = true ∧ ts = t :: rest := by
  rw [relation, take_eq_done]
  constructor
  · rintro ⟨t, hts, ht⟩
    cases hr : t.relation? with
    | none => simp [hr] at ht
    | some r' =>
      simp only [hr, Except.ok.injEq] at ht
      subst ht
      exact ⟨t, Token.relation?_eq_some.1 hr, hts⟩
  · rintro ⟨t, ht, hts⟩
    exact ⟨t, hts, by rw [Token.relation?_eq_some.2 ht]⟩

/-- The rule for a step reads exactly the numbers that are not zero. -/
theorem step_iff_opens {x : Binary64} :
    step ts = .done x rest ↔ (Phrase.number x).Opens ts rest ∧ x.isZero = false := by
  simp only [step, bind_eq_done, current_eq_done, number_iff_opens]
  constructor
  · rintro ⟨t, _, ⟨rfl, -⟩, size, mid, hsize, h⟩
    cases hzero : size.isZero with
    | true =>
      rw [hzero] at h
      cases h
    | false =>
      simp only [hzero, Bool.false_eq_true, if_false, pure_eq_done] at h
      obtain ⟨rfl, rfl⟩ := h
      exact ⟨hsize, hzero⟩
  · rintro ⟨⟨us, rfl, hus⟩, hzero⟩
    cases hus with
    | @number t spelling _ hk hx =>
      refine ⟨t, t :: rest, ⟨rfl, rest, rfl⟩, x, rest, ⟨[t], rfl, .number hk hx⟩, ?_⟩
      rw [hzero]
      exact pure_eq_done.2 ⟨rfl, rfl⟩

/-! ## Rules for single tokens -/

variable {fuel : Nat}

theorem keyword_reads (word : Keyword) :
    (keyword word).Reads fuel (Quiet fun used _ => ∃ t, used = [t] ∧ t.isKeyword word = true) := by
  refine (Reads.take _).of_eq_done fun h => ?_
  obtain ⟨t, ht, rfl⟩ := keyword_eq_done.1 h
  exact ⟨[t], rfl, t, rfl, ht⟩

theorem symbol_reads (sign : Symbol) :
    (symbol sign).Reads fuel (Quiet fun used _ => ∃ t, used = [t] ∧ t.isSymbol sign = true) := by
  refine (Reads.take _).of_eq_done fun h => ?_
  obtain ⟨t, ht, rfl⟩ := symbol_eq_done.1 h
  exact ⟨[t], rfl, t, rfl, ht⟩

theorem var_reads : var.Reads fuel (Quiet fun used v => Derives used (.var v)) :=
  (Reads.take _).of_eq_done var_iff_opens.1

theorem number_reads : number.Reads fuel (Quiet fun used x => Derives used (.number x)) :=
  (Reads.take _).of_eq_done number_iff_opens.1

theorem literal_reads : literal.Reads fuel (Quiet fun used l => Derives used (.literal l)) :=
  (Reads.take _).of_eq_done literal_iff_opens.1

theorem term_reads : term.Reads fuel (Quiet fun used x => Derives used (.term x)) :=
  (Reads.take _).of_eq_done term_iff_opens.1

theorem relation_reads :
    relation.Reads fuel (Quiet fun used r => ∃ t, used = [t] ∧ t.isSymbol r.symbol = true) := by
  refine (Reads.take _).of_eq_done fun h => ?_
  obtain ⟨t, ht, rfl⟩ := relation_eq_done.1 h
  exact ⟨[t], rfl, t, rfl, ht⟩

theorem listGoesOn_reads :
    listGoesOn.Reads fuel (Quiet fun used more =>
      ∃ t, used = [t] ∧ t.isSymbol (if more then .plus else .closeBracket) = true) := by
  refine (Reads.take _).of_eq_done fun h => ?_
  obtain ⟨t, ht, rfl⟩ := listGoesOn_eq_done.1 h
  exact ⟨[t], rfl, t, rfl, ht⟩

/-- A step of zero is rejected with a report, although its token was read. -/
theorem step_reads :
    step.Reads fuel (Quiet fun used x => Derives used (.number x) ∧ x.isZero = false) := by
  apply Reads.current.bind
  rintro _ t rfl
  apply number_reads.bind
  intro us size hsize
  cases hzero : size.isZero with
  | true => exact .fault _ t
  | false => exact .pure fun rest => ⟨rfl, by simpa using hsize, hzero⟩

/-! ## Terms and conditions -/

/-- The terms up to a bracket are a sum of the grammar. -/
theorem termsToBracket_reads (fuel : Nat) :
    (termsToBracket fuel).Reads fuel (Quiet fun used xs =>
      ∃ us closing, used = us ++ [closing] ∧ Derives us (.sum xs) ∧
        closing.isSymbol .closeBracket = true) := by
  induction fuel with
  | zero => exact .spent
  | succ fuel ih =>
    apply term_reads.bind
    intro us x hx
    apply listGoesOn_reads.bind
    rintro _ more ⟨sign, rfl, hsign⟩
    cases more with
    | false => exact .pure fun rest => ⟨rfl, us, sign, by simp, .lastTerm hx, hsign⟩
    | true =>
      have hle : fuel + 1 - us.length - [sign].length ≤ fuel := by
        rw [List.length_singleton]
        omega
      apply (ih.mono hle).bind
      rintro _ xs ⟨vs, closing, rfl, hvs, hclosing⟩
      refine .pure fun rest => ⟨rfl, us ++ sign :: vs, closing, by simp, ?_, hclosing⟩
      exact .nextTerm hx hsign hvs

/-- Terms in brackets are parameters of the grammar. -/
theorem terms_reads (fuel : Nat) :
    (terms fuel).Reads fuel (Quiet fun used xs => Derives used (.params xs)) := by
  apply (symbol_reads .openBracket).bind
  rintro _ _ ⟨opening, rfl, hopening⟩
  apply (skipSymbol_reads .closeBracket).bind
  rintro _ _ (⟨rfl, closing, rfl, hclosing⟩ | ⟨rfl, rfl⟩)
  · exact .pure fun rest => ⟨rfl, .noParams hopening hclosing⟩
  · refine ((termsToBracket_reads fuel).mono (Nat.sub_le _ _)).imp ?_
    rintro _ rest xs made ⟨hmade, us, closing, rfl, hus, hclosing⟩
    exact ⟨hmade, by simpa using Derives.someParams hopening hus hclosing⟩

/-- An operand is one of the grammar, if nested conditions are. -/
theorem operand_reads {inner : Rule Condition}
    (hinner : inner.Reads fuel (Quiet fun used c => Derives used (.condition c))) :
    (operand inner).Reads fuel (Quiet fun used x => Derives used (.operand x)) := by
  apply Reads.current.bind
  rintro _ t rfl
  cases t.startsCondition with
  | true =>
    apply hinner.bind
    intro us c hc
    exact .pure fun rest => ⟨rfl, by simpa using Derives.conditionOperand hc⟩
  | false =>
    apply term_reads.bind
    intro us x hx
    exact .pure fun rest => ⟨rfl, by simpa using Derives.termOperand hx⟩

/-- A condition is one of the grammar. The induction is on the fuel. -/
theorem condition_reads (fuel : Nat) :
    (condition fuel).Reads fuel (Quiet fun used c => Derives used (.condition c)) := by
  induction fuel with
  | zero => exact .spent
  | succ fuel ih =>
    apply (skipSymbol_reads .bang).bind
    intro bs negated hnegated
    apply relation_reads.bind
    rintro _ r ⟨sign, rfl, hsign⟩
    have hle : fuel + 1 - bs.length - [sign].length ≤ fuel := by
      rw [List.length_singleton]
      omega
    apply ((operand_reads ih).mono hle).bind
    intro ls left hls
    apply ((operand_reads ih).mono (Nat.le_trans (Nat.sub_le _ _) hle)).bind
    intro rs right hrs
    have hplain := Derives.relation hsign hls hrs
    refine .pure fun rest => ⟨rfl, ?_⟩
    rcases hnegated with ⟨rfl, bang, rfl, hbang⟩ | ⟨rfl, rfl⟩
    · simpa using Derives.negation hbang hplain
    · simpa using hplain

/-- A value is one of the grammar. -/
theorem value_reads (fuel : Nat) :
    (value fuel).Reads fuel (Quiet fun used given => Derives used (.value given)) := by
  apply (skipKeyword_reads .IN).bind
  rintro _ _ (⟨rfl, word, rfl, hword⟩ | ⟨rfl, rfl⟩)
  · apply ((terms_reads fuel).mono (Nat.sub_le _ _)).bind
    intro us prompt hus
    exact .pure fun rest => ⟨rfl, by simpa using Derives.inputValue hword hus⟩
  · apply term_reads.bind
    intro us x hx
    exact .pure fun rest => ⟨rfl, by simpa using Derives.termValue hx⟩

/-! ## Simple statements -/

/-- The tokens `used` behind `t` make a statement with it, and `rest` follows. If nothing is
reported about a simple statement, the next token is a colon. -/
def IsItem (t : Token) (used rest : List Token) (read : Reported Statement) : Prop :=
  (Derives (t :: used) (.simple read.1) ∧
      (read.2 = [] → ∃ colon ∈ rest.head?, colon.isSymbol .colon = true)) ∨
    Recovers (t :: used) (.compound read.1) read.2

/-- What a rule for the rest of a statement behind the token `t` reads. -/
abbrev ReadsItem (fuel : Nat) (t : Token) (rule : Rule (Reported Statement)) : Prop :=
  rule.Reads fuel fun used rest read made => made = read.2 ∧ IsItem t used rest read

/-- A simple statement that is not reported on has its colon next. -/
theorem endOfSimple_reads (s : Statement) :
    (endOfSimple s).Reads fuel fun used rest read made =>
      used = [] ∧ read = (s, made) ∧
        (made = [] → ∃ colon ∈ rest.head?, colon.isSymbol .colon = true) := by
  apply Reads.current_bind
  intro t ts
  cases hcolon : t.isSymbol .colon with
  | true => exact ⟨[], rfl, rfl, rfl, fun _ => ⟨t, rfl, hcolon⟩⟩
  | false => exact ⟨[], rfl, rfl, rfl, fun hnil => absurd hnil (List.cons_ne_nil _ _)⟩

/-- A simple statement is derived from the tokens before its end. -/
theorem endOfSimple_readsItem {t : Token} {us : List Token} {s : Statement}
    (h : Derives (t :: us) (.simple s)) :
    (endOfSimple s).Reads fuel fun used rest read made =>
      made = read.2 ∧ IsItem t (us ++ used) rest read := by
  refine (endOfSimple_reads s).imp ?_
  rintro _ rest _ made ⟨rfl, rfl, hcolon⟩
  exact ⟨rfl, .inl ⟨by simpa using h, hcolon⟩⟩

/-- Behind `OUT` the rule reads the rest of an output. -/
theorem output_reads (fuel : Nat) {t : Token} (ht : t.isKeyword .OUT = true) :
    ReadsItem fuel t (output fuel) := by
  apply (terms_reads fuel).bind
  intro us shown hus
  exact endOfSimple_readsItem (.output ht hus)

/-- Behind its sign the rule reads the rest of an assignment. -/
theorem assignment_reads (fuel : Nat) {t : Token} (ht : t.isSymbol .assign = true) :
    ReadsItem fuel t (assignment fuel) := by
  apply var_reads.bind
  intro vs target hvs
  apply ((value_reads fuel).mono (Nat.sub_le _ _)).bind
  intro us given hus
  apply (Reads.optional _).bind
  rintro _ _ (⟨final, operator, rfl, hfinal, rfl⟩ | ⟨rfl, rfl⟩)
  · simpa using endOfSimple_readsItem (.update ht hvs hus (arithmetic?_eq_some.1 hfinal))
  · simpa using endOfSimple_readsItem (.assignment ht hvs hus)

/-! ## Compound statements -/

/-- What the rules for statements need of the rule for a block: it reads items and the keyword that
closes them, and keeps the diagnostics. -/
abbrev BlockReads (fuel : Nat) (block : Rule Block) (close : Keyword) : Prop :=
  block.Reads fuel (Carried Block.diagnostics fun used b =>
    ∃ us closing, used = us ++ [closing] ∧ Recovers us (.items b.statements) b.diagnostics ∧
      closing.isKeyword close = true)

section Compound

variable {block : Rule Block} {t : Token} (hblock : BlockReads fuel block .ENDDO)

include hblock

/-- A block in a statement is read as its rule reads it, between `DO` and `ENDDO`. -/
theorem doBlock_reads :
    (doBlock block).Reads fuel
      (Carried Block.diagnostics fun used b => Recovers used (.doBlock b) b.diagnostics) := by
  apply (keyword_reads .DO).bind
  rintro _ _ ⟨opening, rfl, hopening⟩
  refine (hblock.mono (Nat.sub_le _ _)).imp ?_
  rintro _ rest ⟨ss, ds⟩ made ⟨hmade, us, closing, rfl, hus, hclosing⟩
  exact ⟨hmade, .doBlock hopening hus hclosing⟩

theorem whileLoop_reads (ht : t.isKeyword .WHEN = true) :
    ReadsItem fuel t (whileLoop fuel block) := by
  apply (condition_reads fuel).bind
  intro cs test hcs
  apply ((doBlock_reads hblock).mono (Nat.sub_le _ _)).bind_after
  intro bs body hbs
  apply (keyword_reads .ENDWHEN).bind
  rintro _ _ ⟨closing, rfl, hclosing⟩
  refine .pure fun rest => ⟨by simp, .inr ?_⟩
  simpa using Recovers.whileLoop ht hcs hbs hclosing

theorem untilLoop_reads (ht : t.isKeyword .REPEAT = true) :
    ReadsItem fuel t (untilLoop fuel block) := by
  apply (doBlock_reads hblock).bind_after
  intro bs body hbs
  apply (keyword_reads .UNTIL).bind
  rintro _ _ ⟨middle, rfl, hmiddle⟩
  apply ((condition_reads fuel).mono (Nat.sub_le _ _)).bind
  intro cs test hcs
  apply (keyword_reads .ENDREPEAT).bind
  rintro _ _ ⟨closing, rfl, hclosing⟩
  refine .pure fun rest => ⟨by simp, .inr ?_⟩
  simpa using Recovers.untilLoop ht hbs hmiddle hcs hclosing

theorem forLoop_reads (ht : t.isKeyword .FOR = true) :
    ReadsItem fuel t (forLoop block) := by
  apply var_reads.bind
  intro vs counter hvs
  apply (keyword_reads .FROM).bind
  rintro _ _ ⟨first, rfl, hfirst⟩
  apply number_reads.bind
  intro as start has
  apply (keyword_reads .TO).bind
  rintro _ _ ⟨last, rfl, hlast⟩
  apply number_reads.bind
  intro os stop hos
  apply (keyword_reads .BY).bind
  rintro _ _ ⟨size, rfl, hsize⟩
  apply step_reads.bind
  rintro ss step ⟨hss, hzero⟩
  refine Reads.bind_after ((doBlock_reads hblock).mono (by omega)) ?_
  intro bs body hbs
  apply (keyword_reads .ENDFOR).bind
  rintro _ _ ⟨closing, rfl, hclosing⟩
  refine .pure fun rest => ⟨by simp, .inr ?_⟩
  simpa using Recovers.forLoop ht hvs hfirst has hlast hos hsize hss hzero hbs hclosing

/-- The further branches of a choice, up to `ENDIF`, with all reports of their bodies. -/
theorem otherBranches_reads {less : Nat} (hle : less ≤ fuel) :
    (otherBranches block less).Reads less (Carried Prod.snd fun used read =>
      ∃ us closing, used = us ++ [closing] ∧ Recovers us (.branches read.1) read.2 ∧
        closing.isKeyword .ENDIF = true) := by
  induction less with
  | zero => exact .spent
  | succ less ih =>
    have hbody := (doBlock_reads hblock).mono (Nat.le_of_succ_le hle)
    apply (skipKeyword_reads .OTHERWISE).bind
    rintro _ _ (⟨rfl, word, rfl, hword⟩ | ⟨rfl, rfl⟩)
    · apply (skipKeyword_reads .IF).bind
      rintro _ _ (⟨rfl, again, rfl, hagain⟩ | ⟨rfl, rfl⟩)
      · apply ((condition_reads less).mono (Nat.sub_le _ _)).bind
        intro cs test hcs
        have hsub : less + 1 - [word].length - [again].length - cs.length ≤ less := by
          simp only [List.length_singleton]
          omega
        refine Reads.bind_after (hbody.mono hsub) ?_
        intro bs body hbs
        refine Reads.map ((ih (Nat.le_of_succ_le hle)).mono hsub) ?_
        rintro _ rest ⟨others, found⟩ made ⟨rfl, os, closing, rfl, hos, hclosing⟩
        refine ⟨rfl, word :: again :: cs ++ bs ++ os, closing, by simp, ?_, hclosing⟩
        exact .nextBranch hword hagain hcs hbs hos
      · refine Reads.bind_after hbody ?_
        intro bs body hbs
        apply (keyword_reads .ENDIF).bind
        rintro _ _ ⟨closing, rfl, hclosing⟩
        refine .pure fun rest => ⟨by simp, word :: bs, closing, by simp, ?_, hclosing⟩
        exact .lastBranch hword hbs
    · apply (keyword_reads .ENDIF).bind
      rintro _ _ ⟨closing, rfl, hclosing⟩
      exact .pure fun rest => ⟨rfl, [], closing, rfl, .noBranch, hclosing⟩

theorem choice_reads (ht : t.isKeyword .IF = true) : ReadsItem fuel t (choice fuel block) := by
  apply (condition_reads fuel).bind
  intro cs test hcs
  apply ((doBlock_reads hblock).mono (Nat.sub_le _ _)).bind_after
  intro bs body hbs
  refine Reads.map ((otherBranches_reads hblock (Nat.le_refl fuel)).mono (Nat.sub_le _ _)) ?_
  rintro _ rest ⟨others, found⟩ made ⟨rfl, os, closing, rfl, hos, hclosing⟩
  refine ⟨rfl, .inr ?_⟩
  simpa using Recovers.choice ht hcs hbs hos hclosing

/-- The arms of a switch, up to `ENDSWITCH`, with all reports of their bodies. -/
theorem arms_reads {less : Nat} (hle : less ≤ fuel) :
    (arms block less).Reads less (Carried Prod.snd fun used read =>
      ∃ us closing, used = us ++ [closing] ∧ Recovers us (.arms read.1) read.2 ∧
        closing.isKeyword .ENDSWITCH = true) := by
  induction less with
  | zero => exact .spent
  | succ less ih =>
    have hbody := (doBlock_reads hblock).mono (Nat.le_of_succ_le hle)
    apply (skipKeyword_reads .ENDSWITCH).bind
    rintro _ _ (⟨rfl, closing, rfl, hclosing⟩ | ⟨rfl, rfl⟩)
    · exact .pure fun rest => ⟨rfl, [], closing, rfl, .noArm, hclosing⟩
    · apply (keyword_reads .WHEN).bind
      rintro _ _ ⟨word, rfl, hword⟩
      apply literal_reads.bind
      intro ls label hls
      refine Reads.bind_after (hbody.mono (Nat.sub_le _ _)) ?_
      intro bs body hbs
      refine Reads.map ((ih (Nat.le_of_succ_le hle)).mono (Nat.sub_le _ _)) ?_
      rintro _ rest ⟨others, found⟩ made ⟨rfl, as, closing, rfl, has, hclosing⟩
      refine ⟨rfl, word :: ls ++ bs ++ as, closing, by simp, ?_, hclosing⟩
      exact .nextArm hword hls hbs has

theorem switch_reads (ht : t.isKeyword .SWITCH = true) : ReadsItem fuel t (switch fuel block) := by
  apply var_reads.bind
  intro vs subject hvs
  refine Reads.map ((arms_reads hblock (Nat.le_refl fuel)).mono (Nat.sub_le _ _)) ?_
  rintro _ rest ⟨choices, found⟩ made ⟨rfl, as, closing, rfl, has, hclosing⟩
  refine ⟨rfl, .inr ?_⟩
  simpa using Recovers.switch ht hvs has hclosing

/-- The first token of a statement chooses the rule for the rest of it. -/
theorem statement?_reads {rule : Rule (Reported Statement)}
    (hrule : statement? fuel block t.kind = some rule) : ReadsItem fuel t rule := by
  rw [statement?.eq_def] at hrule
  split at hrule <;> cases hrule
  case h_1 hk => exact output_reads fuel (Token.isKeyword_iff.2 hk)
  case h_2 hk => exact assignment_reads fuel (Token.isSymbol_iff.2 hk)
  case h_3 hk => exact whileLoop_reads hblock (Token.isKeyword_iff.2 hk)
  case h_4 hk => exact untilLoop_reads hblock (Token.isKeyword_iff.2 hk)
  case h_5 hk => exact forLoop_reads hblock (Token.isKeyword_iff.2 hk)
  case h_6 hk => exact choice_reads hblock (Token.isKeyword_iff.2 hk)
  case h_7 hk => exact switch_reads hblock (Token.isKeyword_iff.2 hk)

end Compound

/-! ## Blocks -/

/-- What a block reads. While it is skipping, some of its tokens come before its items. -/
def Gathers (close : Keyword) (skipping : Bool) (used : List Token) (b : Block) : Prop :=
  ∃ skipped us closing, used = skipped ++ us ++ [closing] ∧ (skipping = false → skipped = []) ∧
    Recovers us (.items b.statements) b.diagnostics ∧ closing.isKeyword close = true

/-- The induction is on the fuel; each turn takes one token. -/
theorem block_gathers (fuel : Nat) (close : Keyword) (skipping : Bool) :
    (block fuel close skipping).Reads fuel
      (Carried Block.diagnostics (Gathers close skipping)) := by
  induction fuel generalizing close skipping with
  | zero => exact .spent
  | succ fuel ih =>
    have hblock : BlockReads fuel (block fuel .ENDDO false) .ENDDO := by
      refine (ih .ENDDO false).imp ?_
      rintro _ rest b made ⟨hmade, skipped, us, closing, rfl, hskipped, hus, hclosing⟩
      exact ⟨hmade, us, closing, by rw [hskipped rfl]; rfl, hus, hclosing⟩
    apply (Reads.take _).bind
    rintro _ t ⟨_, rfl, ⟨⟩⟩
    change Reads fuel _ _
    split
    case isTrue hclose =>
      exact .pure fun rest => ⟨rfl, [], [], t, rfl, fun _ => rfl, .noItem, hclose⟩
    split
    case isTrue hcolon =>
      refine (ih close false).imp ?_
      rintro _ rest b made ⟨hmade, skipped, us, closing, rfl, hskipped, hus, hclosing⟩
      obtain rfl := hskipped rfl
      exact ⟨hmade, [], t :: us, closing, rfl, fun _ => rfl, .colonItem hcolon hus, hclosing⟩
    split
    case isTrue hskipping =>
      refine (ih close true).imp ?_
      rintro _ rest b made ⟨hmade, skipped, us, closing, rfl, -, hus, hclosing⟩
      refine ⟨hmade, t :: skipped, us, closing, rfl, fun hskips => ?_, hus, hclosing⟩
      rw [hskips] at hskipping
      cases hskipping
    split
    case h_1 =>
      -- a token that begins no item is refused, with all that is skipped behind it
      unfold prepend
      apply (Reads.blame .statement t).bind_after
      rintro _ d rfl
      refine (ih close true).map ?_
      rintro _ rest b made ⟨rfl, skipped, us, closing, rfl, -, hus, hclosing⟩
      refine ⟨rfl, [], t :: skipped ++ us, closing, by simp, fun _ => rfl, ?_, hclosing⟩
      exact .refusedItem (List.cons_ne_nil d []) hus
    case h_2 rule hrule =>
      unfold prepend
      apply (statement?_reads hblock hrule).recover_after
      · intro vs mid read hitem
        refine (ih close false).map ?_
        rintro _ rest b made ⟨rfl, skipped, us, closing, rfl, hskipped, hus, hclosing⟩ hmid
        obtain rfl := hskipped rfl
        refine ⟨rfl, [], t :: vs ++ us, closing, by simp, fun _ => rfl, ?_, hclosing⟩
        rcases hitem with ⟨hsimple, hcolon⟩ | hcompound
        · refine .simpleItem hsimple (fun hnil => ?_) hus
          -- the colon is no keyword, so it is among the items that are left
          obtain ⟨colon, hhead, hsign⟩ := hcolon hnil
          cases us with
          | nil =>
            rw [hmid] at hhead
            cases hhead
            rw [Token.isSymbol_eq_false_of_isKeyword hclosing] at hsign
            cases hsign
          | cons u us =>
            rw [hmid] at hhead
            exact ⟨colon, hhead, hsign⟩
        · exact .compoundItem hcompound hus
      · intro vs report hne
        refine (ih close true).map ?_
        rintro _ rest b made ⟨rfl, skipped, us, closing, rfl, -, hus, hclosing⟩
        refine ⟨rfl, [], t :: vs ++ skipped ++ us, closing, by simp, fun _ => rfl, ?_, hclosing⟩
        exact .refusedItem hne hus

/-- A block that is not skipping reads its items and its keyword. -/
theorem block_reads (fuel : Nat) (close : Keyword) :
    BlockReads fuel (block fuel close false) close := by
  refine (block_gathers fuel close false).imp ?_
  rintro _ rest b made ⟨hmade, skipped, us, closing, rfl, hskipped, hus, hclosing⟩
  exact ⟨hmade, us, closing, by rw [hskipped rfl]; rfl, hus, hclosing⟩

/-- A block that was read consists of items, with faults perhaps, and the keyword that closes it. -/
theorem block_recovers {close : Keyword} {b : Block}
    (h : block fuel close false ts = .done b rest) :
    ∃ us closing, ts = us ++ closing :: rest ∧ Recovers us (.items b.statements) b.diagnostics ∧
      closing.isKeyword close = true := by
  obtain ⟨_, rfl, -, us, closing, rfl, hus, hclosing⟩ := (block_reads fuel close).done h
  exact ⟨us, closing, by simp, hus, hclosing⟩

/-- Without diagnostics, the items are derived. -/
theorem block_sound {close : Keyword} {b : Block} (h : block fuel close false ts = .done b rest)
    (hb : b.diagnostics = []) :
    ∃ us closing, ts = us ++ closing :: rest ∧ Derives us (.items b.statements) ∧
      closing.isKeyword close = true := by
  obtain ⟨us, closing, hts, hus, hclosing⟩ := block_recovers h
  exact ⟨us, closing, hts, hus.derives hb, hclosing⟩

/-- A block is read to its end or to the end of the tokens. -/
theorem block_ne_rejected {close : Keyword} {skipping : Bool} {report : List Diagnostic} :
    block fuel close skipping ts ≠ .rejected report rest := by
  induction fuel generalizing close skipping ts report with
  | zero =>
    intro h
    cases ts <;> cases h
  | succ fuel ih =>
    have hprepend : ∀ {close skipping ts ss ds report},
        (block fuel close skipping ts).prepend ss ds ≠ .rejected report rest := by
      intro close skipping ts ss ds report h
      cases hb : block fuel close skipping ts with
      | rejected report us =>
        rw [hb] at h
        cases h
        exact ih hb
      | _ =>
        rw [hb] at h
        cases h
    intro h
    cases ts with
    | nil => cases h
    | cons t us =>
      rw [block_cons] at h
      split at h
      · cases h
      split at h
      · exact ih h
      split at h
      · exact ih h
      split at h
      · exact hprepend h
      split at h
      · exact hprepend h
      · exact hprepend h
      · cases h
      · cases h

/-! ## The beginning of a program -/

/-- The header is the word `PROG` and a name. -/
theorem header_eq_done {name : String} :
    header ts = .done name rest ↔
      ∃ opening title, opening.isKeyword .PROG = true ∧ title.kind = .ident name ∧
        ts = opening :: title :: rest := by
  simp only [header, bind_eq_done, keyword_eq_done, programName, take_eq_done]
  constructor
  · rintro ⟨_, _, ⟨opening, hopening, rfl⟩, title, rfl, htitle⟩
    split at htitle
    case h_1 name' hk =>
      cases htitle
      exact ⟨opening, title, hopening, hk, rfl⟩
    case h_2 => cases htitle
  · rintro ⟨opening, title, hopening, htitle, rfl⟩
    exact ⟨(), _, ⟨opening, hopening, rfl⟩, title, rfl, by simp [htitle]⟩

theorem header_reads :
    header.Reads fuel (Quiet fun used name => ∃ opening title, used = [opening, title] ∧
      opening.isKeyword .PROG = true ∧ title.kind = .ident name) := by
  have hquiet : header.Reads fuel (Quiet fun _ _ => True) :=
    (keyword_reads .PROG).bind fun _ _ _ => (Reads.take _).imp fun _ _ _ _ h => ⟨h.1, trivial⟩
  refine hquiet.of_eq_done fun h => ?_
  obtain ⟨opening, title, hopening, htitle, rfl⟩ := header_eq_done.1 h
  exact ⟨[opening, title], rfl, opening, title, rfl, hopening, htitle⟩

end Rule

end Zed
