import Mathlib.Data.List.Forall2
import Zed.Proofs.Grammar.Completeness
import Zed.Proofs.Number.Spelling
import Zed.Proofs.Program.Erasure
import Zed.Proofs.Token.Printing

/-!
# Programs written out

A program is written as the tokens that the grammar derives it from, with a colon after each simple
statement. A number has many spellings, and any of them will do, so a program is first turned into
*marks*: the kinds of its tokens, with numbers by their values. Text that is written from the marks
of a well-formed program is read as that program again (`Program.ofTokens_print`).
-/

set_option autoImplicit false

namespace Zed

/-! ## Marks -/

/-- What is written as one token: a token of a certain kind, or a number. -/
inductive Mark where
  | kind (kind : Token.Kind)
  | number (value : Binary64)

namespace Mark

def word (word : Keyword) : Mark :=
  .kind (.keyword word)

def sign (sign : Symbol) : Mark :=
  .kind (.symbol sign)

/-- The kinds that a mark is written as. A number is written as any numeral with its value. -/
inductive Writes : Mark → Token.Kind → Prop
  | kind (k : Token.Kind) : Writes (.kind k) k
  | number {spelling : String} {value : Binary64} :
      IsNumeral spelling.toList → Binary64.ofSpelling? spelling = some value →
      Writes (.number value) (.number spelling)

end Mark

def Variable.marks (v : Variable) : List Mark :=
  [.kind (.var v.name)]

def Term.marks : Term → List Mark
  | .var v => v.marks
  | .text body => [.kind (.text body)]
  | .number x => [.number x]

def Literal.marks : Literal → List Mark
  | .text body => [.kind (.text body)]
  | .number x => [.number x]

/-- Terms with plus signs between them. -/
def Term.sumMarks : List Term → List Mark
  | [] => []
  | [t] => t.marks
  | t :: u :: ts => t.marks ++ .sign .plus :: Term.sumMarks (u :: ts)

/-- Terms in brackets. -/
def Term.paramMarks (ts : List Term) : List Mark :=
  .sign .openBracket :: Term.sumMarks ts ++ [.sign .closeBracket]

def Value.marks : Value → List Mark
  | .term t => t.marks
  | .input prompt => .word .IN :: Term.paramMarks prompt

def Operand.marks : Operand → List Mark
  | .term t => t.marks
  | .condition false r left right => .sign r.symbol :: left.marks ++ right.marks
  | .condition true r left right => .sign .bang :: (.sign r.symbol :: left.marks ++ right.marks)

def Condition.marks (c : Condition) : List Mark :=
  c.toOperand.marks

mutual
/-- The marks of a statement. The colon after a simple one is among them. -/
def Statement.marks : Statement → List Mark
  | .assign target value none => .sign .assign :: target.marks ++ value.marks ++ [.sign .colon]
  | .assign target value (some operator) =>
    .sign .assign :: target.marks ++ value.marks ++ [.sign operator.symbol] ++ [.sign .colon]
  | .output terms => .word .OUT :: Term.paramMarks terms ++ [.sign .colon]
  | .whileLoop test body => .word .WHEN :: test.marks ++ Block.marks body ++ [.word .ENDWHEN]
  | .untilLoop body test =>
    .word .REPEAT :: Block.marks body ++ .word .UNTIL :: test.marks ++ [.word .ENDREPEAT]
  | .forLoop counter start stop step body =>
    .word .FOR :: counter.marks ++ .word .FROM :: [.number start] ++ .word .TO :: [.number stop]
      ++ .word .BY :: [.number step] ++ Block.marks body ++ [.word .ENDFOR]
  | .choice [] => []
  | .choice ((none, _) :: _) => []
  | .choice ((some test, body) :: others) =>
    .word .IF :: test.marks ++ Block.marks body ++ Statement.branchMarks others ++ [.word .ENDIF]
  | .switch subject arms =>
    .word .SWITCH :: subject.marks ++ Statement.armMarks arms ++ [.word .ENDSWITCH]
/-- Statements in order. -/
def Statement.allMarks : List Statement → List Mark
  | [] => []
  | s :: ss => Statement.marks s ++ Statement.allMarks ss
def Block.marks : Block → List Mark
  | .mk ss _ => .word .DO :: Statement.allMarks ss ++ [.word .ENDDO]
/-- The branches of a choice after its first one. -/
def Statement.branchMarks : List (Option Condition × Block) → List Mark
  | [] => []
  | (some test, body) :: others =>
    .word .OTHERWISE :: .word .IF :: test.marks ++ Block.marks body ++ Statement.branchMarks others
  | (none, body) :: _ => .word .OTHERWISE :: Block.marks body
/-- The arms of a switch. -/
def Statement.armMarks : List (Literal × Block) → List Mark
  | [] => []
  | (label, body) :: others =>
    .word .WHEN :: label.marks ++ Block.marks body ++ Statement.armMarks others
end

def Program.marks (p : Program) : List Mark :=
  .word .PROG :: .kind (.ident p.name) :: Statement.allMarks p.body.statements ++ [.word .ENDPROG]

/-! ## Tokens of marks -/

/-- The tokens are what the marks are written as, one by one. -/
def Written (ms : List Mark) (ts : List Token) : Prop :=
  List.Forall₂ (fun m t => m.Writes t.kind) ms ts

namespace Written

variable {ms ns : List Mark} {ts : List Token}

theorem eq_nil (h : Written [] ts) : ts = [] :=
  List.forall₂_nil_left_iff.1 h

/-- Where a kind is to be written, a token of this kind stands first. -/
theorem cons_kind {k : Token.Kind} (h : Written (.kind k :: ms) ts) :
    ∃ t us, t.kind = k ∧ Written ms us ∧ ts = t :: us := by
  obtain ⟨t, us, hwrites, hus, rfl⟩ := List.forall₂_cons_left_iff.1 h
  generalize hkind : t.kind = kind at hwrites
  cases hwrites
  exact ⟨t, us, hkind, hus, rfl⟩

/-- Where a keyword is to be written, this keyword stands first. -/
theorem cons_word {w : Keyword} (h : Written (.word w :: ms) ts) :
    ∃ t us, t.isKeyword w = true ∧ Written ms us ∧ ts = t :: us := by
  obtain ⟨t, us, hkind, hus, rfl⟩ := h.cons_kind
  exact ⟨t, us, by simpa [Token.isKeyword] using hkind, hus, rfl⟩

/-- Where a symbol is to be written, this symbol stands first. -/
theorem cons_sign {s : Symbol} (h : Written (.sign s :: ms) ts) :
    ∃ t us, t.isSymbol s = true ∧ Written ms us ∧ ts = t :: us := by
  obtain ⟨t, us, hkind, hus, rfl⟩ := h.cons_kind
  exact ⟨t, us, by simpa [Token.isSymbol] using hkind, hus, rfl⟩

/-- What is written for two lists of marks is written for the first one and then for
the second one. -/
theorem append (h : Written (ms ++ ns) ts) :
    ∃ us vs, Written ms us ∧ Written ns vs ∧ ts = us ++ vs := by
  induction ms generalizing ts with
  | nil => exact ⟨[], ts, .nil, h, rfl⟩
  | cons m ms ih =>
    obtain ⟨t, us, hwrites, hus, rfl⟩ := List.forall₂_cons_left_iff.1 h
    obtain ⟨vs, ws, hvs, hws, rfl⟩ := ih hus
    exact ⟨t :: vs, ws, .cons hwrites hvs, hws, rfl⟩

/-- The last mark is a keyword. -/
theorem append_word {w : Keyword} (h : Written (ms ++ [.word w]) ts) :
    ∃ us t, Written ms us ∧ t.isKeyword w = true ∧ ts = us ++ [t] := by
  obtain ⟨us, vs, hus, hvs, rfl⟩ := h.append
  obtain ⟨t, ws, ht, hws, rfl⟩ := hvs.cons_word
  exact ⟨us, t, hus, ht, by rw [hws.eq_nil]⟩

/-- The last mark is a symbol. -/
theorem append_sign {s : Symbol} (h : Written (ms ++ [.sign s]) ts) :
    ∃ us t, Written ms us ∧ t.isSymbol s = true ∧ ts = us ++ [t] := by
  obtain ⟨us, vs, hus, hvs, rfl⟩ := h.append
  obtain ⟨t, ws, ht, hws, rfl⟩ := hvs.cons_sign
  exact ⟨us, t, hus, ht, by rw [hws.eq_nil]⟩

end Written

/-! ## Terms and conditions -/

section Leaves

variable {ts : List Token}

/-- What is written for a variable is read as that variable, wherever it stands. -/
theorem Variable.derives {v : Variable} (h : Written v.marks ts) :
    ∃ w, Derives ts (.var w) ∧ w.erase = v.erase := by
  obtain ⟨t, us, hkind, hus, rfl⟩ := Written.cons_kind h
  cases hus.eq_nil
  exact ⟨_, .var hkind, rfl⟩

/-- Whatever numeral is written for a number, it is read as that number. -/
theorem derives_number {x : Binary64} (h : Written [.number x] ts) : Derives ts (.number x) := by
  obtain ⟨t, us, hwrites, hus, rfl⟩ := List.forall₂_cons_left_iff.1 h
  cases Written.eq_nil hus
  generalize hkind : t.kind = kind at hwrites
  cases hwrites with
  | number _ hvalue => exact .number hkind hvalue

/-- What is written for a term is read as that term, up to positions. -/
theorem Term.derives {x : Term} (h : Written x.marks ts) :
    ∃ y, Derives ts (.term y) ∧ y.erase = x.erase := by
  cases x with
  | var v =>
    obtain ⟨w, hw, herase⟩ := Variable.derives h
    exact ⟨.var w, .varTerm hw, congrArg Term.var herase⟩
  | text body =>
    obtain ⟨t, us, hkind, hus, rfl⟩ := Written.cons_kind h
    cases hus.eq_nil
    exact ⟨.text body, .textTerm hkind, rfl⟩
  | number value => exact ⟨.number value, .numberTerm (derives_number h), rfl⟩

/-- What is written for a literal is read as that literal. -/
theorem Literal.derives {l : Literal} (h : Written l.marks ts) : Derives ts (.literal l) := by
  cases l with
  | text body =>
    obtain ⟨t, us, hkind, hus, rfl⟩ := Written.cons_kind h
    cases hus.eq_nil
    exact .textLiteral hkind
  | number value => exact .numberLiteral (derives_number h)

/-- Terms with plus signs between them are read as these terms, up to positions. -/
theorem Term.derives_sum {x : Term} {xs : List Term} (h : Written (Term.sumMarks (x :: xs)) ts) :
    ∃ ys, Derives ts (.sum ys) ∧ ys.map Term.erase = (x :: xs).map Term.erase := by
  induction xs generalizing x ts with
  | nil =>
    obtain ⟨y, hy, herase⟩ := Term.derives h
    exact ⟨[y], .lastTerm hy, congrArg ([·]) herase⟩
  | cons z zs ih =>
    obtain ⟨us, vs, hus, hvs, rfl⟩ := Written.append h
    obtain ⟨plus, ws, hplus, hws, rfl⟩ := hvs.cons_sign
    obtain ⟨y, hy, herase⟩ := Term.derives hus
    obtain ⟨ys, hys, heraseAll⟩ := ih hws
    refine ⟨y :: ys, .nextTerm hy hplus hys, ?_⟩
    rw [List.map_cons, herase, heraseAll]
    rfl

/-- Terms in brackets are read as these terms, up to positions. There may be none. -/
theorem Term.derives_params {xs : List Term} (h : Written (Term.paramMarks xs) ts) :
    ∃ ys, Derives ts (.params ys) ∧ ys.map Term.erase = xs.map Term.erase := by
  obtain ⟨us, closing, hus, hclosing, rfl⟩ := Written.append_sign h
  obtain ⟨opening, vs, hopening, hvs, rfl⟩ := hus.cons_sign
  cases xs with
  | nil =>
    cases hvs.eq_nil
    exact ⟨[], .noParams hopening hclosing, rfl⟩
  | cons x xs =>
    obtain ⟨ys, hys, herase⟩ := Term.derives_sum hvs
    exact ⟨ys, .someParams hopening hys hclosing, herase⟩

/-- What is written for a value is read as that value, up to positions. -/
theorem Value.derives {v : Value} (h : Written v.marks ts) :
    ∃ w, Derives ts (.value w) ∧ w.erase = v.erase := by
  cases v with
  | term x =>
    obtain ⟨y, hy, herase⟩ := Term.derives h
    exact ⟨.term y, .termValue hy, congrArg Value.term herase⟩
  | input prompt =>
    obtain ⟨word, us, hword, hus, rfl⟩ := Written.cons_word h
    obtain ⟨ys, hys, herase⟩ := Term.derives_params hus
    exact ⟨.input ys, .inputValue hword hys, congrArg Value.input herase⟩

/-- A condition is derived if its sides are. -/
theorem derives_condition {negated : Bool} {r : Relation} {left right : Operand}
    (hleft : ∀ us, Written left.marks us → ∃ o, Derives us (.operand o) ∧ o.erase = left.erase)
    (hright : ∀ us, Written right.marks us → ∃ o, Derives us (.operand o) ∧ o.erase = right.erase)
    (h : Written (Operand.condition negated r left right).marks ts) :
    ∃ c, Derives ts (.condition c) ∧ c.erase = ⟨negated, r, left.erase, right.erase⟩ := by
  -- A negation is one more sign in front of the same marks.
  have hplain : ∀ us, Written (.sign r.symbol :: left.marks ++ right.marks) us →
      ∃ l o, Derives us (.condition ⟨false, r, l, o⟩) ∧ l.erase = left.erase ∧
        o.erase = right.erase := by
    intro us hus
    obtain ⟨vs, ws, hvs, hws, rfl⟩ := hus.append
    obtain ⟨sign, ls, hsign, hls, rfl⟩ := hvs.cons_sign
    obtain ⟨l, hl, hlerase⟩ := hleft ls hls
    obtain ⟨o, ho, hoerase⟩ := hright ws hws
    exact ⟨l, o, .relation hsign hl ho, hlerase, hoerase⟩
  cases negated with
  | false =>
    obtain ⟨l, o, hderives, hl, ho⟩ := hplain ts h
    exact ⟨_, hderives, by rw [Condition.erase_mk, hl, ho]⟩
  | true =>
    obtain ⟨bang, us, hbang, hus, rfl⟩ := Written.cons_sign h
    obtain ⟨l, o, hderives, hl, ho⟩ := hplain us hus
    exact ⟨_, .negation hbang hderives, by rw [Condition.erase_mk, hl, ho]⟩

/-- What is written for an operand is read as that operand, up to positions. The operator of a
nested condition stands in front of its operands, so no brackets are needed. -/
theorem Operand.derives {x : Operand} (h : Written x.marks ts) :
    ∃ o, Derives ts (.operand o) ∧ o.erase = x.erase := by
  induction x generalizing ts with
  | term t =>
    obtain ⟨y, hy, herase⟩ := Term.derives h
    exact ⟨.term y, .termOperand hy, congrArg Operand.term herase⟩
  | condition negated r left right ihl ihr =>
    obtain ⟨c, hc, herase⟩ := derives_condition (fun _ => ihl) (fun _ => ihr) h
    refine ⟨c.toOperand, .conditionOperand hc, ?_⟩
    exact congrArg Condition.toOperand herase

/-- What is written for a condition is read as that condition, up to positions. -/
theorem Condition.derives {x : Condition} (h : Written x.marks ts) :
    ∃ c, Derives ts (.condition c) ∧ c.erase = x.erase :=
  derives_condition (fun _ => Operand.derives) (fun _ => Operand.derives) h

end Leaves

/-! ## Statements -/

/-- In front of the items of a block, the tokens are one more of them. -/
def IsItem (ts : List Token) (s : Statement) : Prop :=
  ∀ us ss, Derives us (.items ss) → Derives (ts ++ us) (.items (s :: ss))

/-- A simple statement with its colon is an item of a block. -/
theorem Derives.isItem_simple {ts : List Token} {colon : Token} {s : Statement}
    (h : Derives ts (.simple s)) (hcolon : colon.isSymbol .colon = true) :
    IsItem (ts ++ [colon]) s := by
  intro us ss hus
  rw [List.append_assoc]
  exact .simpleItem h hcolon hus

/-- A compound statement is an item of a block without a colon. -/
theorem Derives.isItem_compound {ts : List Token} {s : Statement} (h : Derives ts (.compound s)) :
    IsItem ts s :=
  fun _ _ hus => .compoundItem h hus

section Statements

variable {a : Alphabet}

mutual
/-- The statement that is read back has no diagnostics in its blocks. -/
theorem Statement.derives : ∀ (s : Statement), s.WellFormed a → ∀ ts, Written s.marks ts →
    ∃ r, IsItem ts r ∧ r.erase id = s.bare
  | .assign target value none, _, ts, hts => by
    obtain ⟨us, colon, hus, hcolon, rfl⟩ := Written.append_sign hts
    obtain ⟨vs, ws, hvs, hws, rfl⟩ := hus.append
    obtain ⟨sign, xs, hsign, hxs, rfl⟩ := hvs.cons_sign
    obtain ⟨x, hx, hxerase⟩ := Variable.derives hxs
    obtain ⟨v, hv, hverase⟩ := Value.derives hws
    refine ⟨.assign x v none, (Derives.assignment hsign hx hv).isItem_simple hcolon, ?_⟩
    rw [Statement.erase_assign, hxerase, hverase]
    rfl
  | .assign target value (some operator), _, ts, hts => by
    obtain ⟨us, colon, hus, hcolon, rfl⟩ := Written.append_sign hts
    obtain ⟨rs, final, hrs, hfinal, rfl⟩ := hus.append_sign
    obtain ⟨vs, ws, hvs, hws, rfl⟩ := hrs.append
    obtain ⟨sign, xs, hsign, hxs, rfl⟩ := hvs.cons_sign
    obtain ⟨x, hx, hxerase⟩ := Variable.derives hxs
    obtain ⟨v, hv, hverase⟩ := Value.derives hws
    refine ⟨.assign x v (some operator), (Derives.update hsign hx hv hfinal).isItem_simple hcolon,
      ?_⟩
    rw [Statement.erase_assign, hxerase, hverase]
    rfl
  | .output terms, _, ts, hts => by
    obtain ⟨us, colon, hus, hcolon, rfl⟩ := Written.append_sign hts
    obtain ⟨word, vs, hword, hvs, rfl⟩ := hus.cons_word
    obtain ⟨xs, hxs, herase⟩ := Term.derives_params hvs
    refine ⟨.output xs, (Derives.output hword hxs).isItem_simple hcolon, ?_⟩
    rw [Statement.erase_output, herase]
    rfl
  | .whileLoop test body, h, ts, hts => by
    obtain ⟨us, closing, hus, hclosing, rfl⟩ := Written.append_word hts
    obtain ⟨vs, bs, hvs, hbs, rfl⟩ := hus.append
    obtain ⟨word, cs, hword, hcs, rfl⟩ := hvs.cons_word
    obtain ⟨c, hc, hcerase⟩ := Condition.derives hcs
    obtain ⟨b, hb, hberase⟩ := Block.derives body (Statement.wellFormed_whileLoop.1 h).2 bs hbs
    refine ⟨.whileLoop c b, (Derives.whileLoop hword hc hb hclosing).isItem_compound, ?_⟩
    rw [Statement.erase_whileLoop, hcerase, hberase]
    rfl
  | .untilLoop body test, h, ts, hts => by
    obtain ⟨us, closing, hus, hclosing, rfl⟩ := Written.append_word hts
    obtain ⟨vs, ws, hvs, hws, rfl⟩ := hus.append
    obtain ⟨word, bs, hword, hbs, rfl⟩ := hvs.cons_word
    obtain ⟨middle, cs, hmiddle, hcs, rfl⟩ := hws.cons_word
    obtain ⟨b, hb, hberase⟩ := Block.derives body (Statement.wellFormed_untilLoop.1 h).1 bs hbs
    obtain ⟨c, hc, hcerase⟩ := Condition.derives hcs
    refine ⟨.untilLoop b c, (Derives.untilLoop hword hb hmiddle hc hclosing).isItem_compound, ?_⟩
    rw [Statement.erase_untilLoop, hcerase, hberase]
    rfl
  | .forLoop counter start stop step body, h, ts, hts => by
    obtain ⟨_, _, _, _, hstep, hbody⟩ := Statement.wellFormed_forLoop.1 h
    -- The tokens are taken apart from the right, as the marks are put together.
    obtain ⟨toBody, closing, htoBody, hclosing, rfl⟩ := Written.append_word hts
    obtain ⟨toStep, bs, htoStep, hbs, rfl⟩ := htoBody.append
    obtain ⟨toStop, bys, htoStop, hbys, rfl⟩ := htoStep.append
    obtain ⟨toStart, tos, htoStart, htos, rfl⟩ := htoStop.append
    obtain ⟨head, froms, hhead, hfroms, rfl⟩ := htoStart.append
    obtain ⟨word, vs, hword, hvs, rfl⟩ := hhead.cons_word
    obtain ⟨first, as, hfirst, has, rfl⟩ := hfroms.cons_word
    obtain ⟨last, os, hlast, hos, rfl⟩ := htos.cons_word
    obtain ⟨size, ss, hsize, hss, rfl⟩ := hbys.cons_word
    obtain ⟨v, hv, hverase⟩ := Variable.derives hvs
    obtain ⟨b, hb, hberase⟩ := Block.derives body hbody bs hbs
    have hloop := Derives.forLoop hword hv hfirst (derives_number has) hlast (derives_number hos)
      hsize (derives_number hss) hstep hb hclosing
    refine ⟨.forLoop v start stop step b, hloop.isItem_compound, ?_⟩
    rw [Statement.erase_forLoop, hverase, hberase]
    rfl
  | .choice [], h, _, _ => absurd h Statement.not_wellFormed_choice_nil
  | .choice ((none, _) :: _), h, _, _ => absurd h Statement.not_wellFormed_choice_none
  | .choice ((some test, body) :: others), h, ts, hts => by
    obtain ⟨_, hbody, hothers⟩ := Statement.wellFormed_choice.1 h
    obtain ⟨us, closing, hus, hclosing, rfl⟩ := Written.append_word hts
    obtain ⟨vs, os, hvs, hos, rfl⟩ := hus.append
    obtain ⟨ws, bs, hws, hbs, rfl⟩ := hvs.append
    obtain ⟨word, cs, hword, hcs, rfl⟩ := hws.cons_word
    obtain ⟨c, hc, hcerase⟩ := Condition.derives hcs
    obtain ⟨b, hb, hberase⟩ := Block.derives body hbody bs hbs
    obtain ⟨rest, hrest, hresterase⟩ := Statement.derivesBranches others hothers os hos
    refine ⟨.choice ((some c, b) :: rest),
      (Derives.choice hword hc hb hrest hclosing).isItem_compound, ?_⟩
    rw [Statement.erase_choice, Statement.eraseBranches_cons, Option.map_some, hcerase,
      hberase, hresterase]
    rfl
  | .switch subject arms, h, ts, hts => by
    obtain ⟨us, closing, hus, hclosing, rfl⟩ := Written.append_word hts
    obtain ⟨ws, as, hws, has, rfl⟩ := hus.append
    obtain ⟨word, vs, hword, hvs, rfl⟩ := hws.cons_word
    obtain ⟨v, hv, hverase⟩ := Variable.derives hvs
    obtain ⟨rest, hrest, hresterase⟩ :=
      Statement.derivesArms arms (Statement.wellFormed_switch.1 h).2 as has
    refine ⟨.switch v rest, (Derives.switch hword hv hrest hclosing).isItem_compound, ?_⟩
    rw [Statement.erase_switch, hverase, hresterase]
    rfl

/-- What is written for well-formed statements is read as these statements, without a report. -/
theorem Statement.derivesAll : ∀ (ss : List Statement), Statement.allWellFormed a ss → ∀ ts,
    Written (Statement.allMarks ss) ts →
    ∃ rs, Derives ts (.items rs) ∧ Statement.eraseAll id rs = Statement.eraseAll (fun _ => []) ss
  | [], _, ts, hts => by
    cases hts.eq_nil
    exact ⟨[], .noItem, rfl⟩
  | s :: ss, h, ts, hts => by
    obtain ⟨hs, hss⟩ := Statement.allWellFormed_cons.1 h
    obtain ⟨us, vs, hus, hvs, rfl⟩ := Written.append hts
    obtain ⟨r, hr, hrerase⟩ := Statement.derives s hs us hus
    obtain ⟨rs, hrs, hrserase⟩ := Statement.derivesAll ss hss vs hvs
    refine ⟨r :: rs, hr vs rs hrs, ?_⟩
    rw [Statement.eraseAll_cons, hrerase, hrserase]
    rfl

/-- What is written for a well-formed block is read as that block, without a report. -/
theorem Block.derives : ∀ (b : Block), b.WellFormed a → ∀ ts, Written b.marks ts →
    ∃ c, Derives ts (.doBlock c) ∧ c.erase id = b.bare
  | .mk ss _, h, ts, hts => by
    obtain ⟨us, closing, hus, hclosing, rfl⟩ := Written.append_word hts
    obtain ⟨opening, vs, hopening, hvs, rfl⟩ := hus.cons_word
    obtain ⟨rs, hrs, herase⟩ := Statement.derivesAll ss (Block.wellFormed_mk.1 h) vs hvs
    refine ⟨.mk rs [], .doBlock hopening hrs hclosing, ?_⟩
    rw [Block.erase_mk, herase]
    rfl

/-- What is written for well-formed branches is read as these branches. The branch without a
condition is the last one, so the reader does not stop early. -/
theorem Statement.derivesBranches : ∀ (branches : List (Option Condition × Block)),
    Statement.wellFormedBranches a branches → ∀ ts, Written (Statement.branchMarks branches) ts →
    ∃ rs, Derives ts (.branches rs) ∧
      Statement.eraseBranches id rs = Statement.bareBranches branches
  | [], _, ts, hts => by
    cases hts.eq_nil
    exact ⟨[], .noBranch, rfl⟩
  | (some test, body) :: others, h, ts, hts => by
    obtain ⟨_, hbody, hothers⟩ := Statement.wellFormedBranches_some.1 h
    obtain ⟨us, os, hus, hos, rfl⟩ := Written.append hts
    obtain ⟨vs, bs, hvs, hbs, rfl⟩ := hus.append
    obtain ⟨word, ws, hword, hws, rfl⟩ := hvs.cons_word
    obtain ⟨again, cs, hagain, hcs, rfl⟩ := hws.cons_word
    obtain ⟨c, hc, hcerase⟩ := Condition.derives hcs
    obtain ⟨b, hb, hberase⟩ := Block.derives body hbody bs hbs
    obtain ⟨rest, hrest, hresterase⟩ := Statement.derivesBranches others hothers os hos
    refine ⟨(some c, b) :: rest, .nextBranch hword hagain hc hb hrest, ?_⟩
    rw [Statement.eraseBranches_cons, Option.map_some, hcerase, hberase, hresterase]
    rfl
  | (none, body) :: others, h, ts, hts => by
    obtain ⟨hbody, rfl⟩ := Statement.wellFormedBranches_none.1 h
    obtain ⟨word, bs, hword, hbs, rfl⟩ := Written.cons_word hts
    obtain ⟨b, hb, hberase⟩ := Block.derives body hbody bs hbs
    refine ⟨[(none, b)], .lastBranch hword hb, ?_⟩
    rw [Statement.eraseBranches_cons, hberase]
    rfl

/-- What is written for well-formed arms is read as these arms. -/
theorem Statement.derivesArms : ∀ (arms : List (Literal × Block)),
    Statement.wellFormedArms a arms → ∀ ts, Written (Statement.armMarks arms) ts →
    ∃ rs, Derives ts (.arms rs) ∧ Statement.eraseArms id rs = Statement.bareArms arms
  | [], _, ts, hts => by
    cases hts.eq_nil
    exact ⟨[], .noArm, rfl⟩
  | (label, body) :: others, h, ts, hts => by
    obtain ⟨_, hbody, hothers⟩ := Statement.wellFormedArms_cons.1 h
    obtain ⟨us, as, hus, has, rfl⟩ := Written.append hts
    obtain ⟨vs, bs, hvs, hbs, rfl⟩ := hus.append
    obtain ⟨word, ls, hword, hls, rfl⟩ := hvs.cons_word
    obtain ⟨b, hb, hberase⟩ := Block.derives body hbody bs hbs
    obtain ⟨rest, hrest, hresterase⟩ := Statement.derivesArms others hothers as has
    refine ⟨(label, b) :: rest, .nextArm hword (Literal.derives hls) hb hrest, ?_⟩
    rw [Statement.eraseArms_cons, hberase, hresterase]
    rfl
end

/-- What is written for a well-formed program is read as that program, up to
positions and reports. -/
theorem Program.derives {p : Program} (h : p.WellFormed a) {ts : List Token}
    (hts : Written p.marks ts) :
    ∃ q, Derives ts (.program q) ∧ q.erase id = p.bare := by
  obtain ⟨name, ss, ds⟩ := p
  obtain ⟨us, closing, hus, hclosing, rfl⟩ := Written.append_word hts
  obtain ⟨opening, ws, hopening, hws, rfl⟩ := hus.cons_word
  obtain ⟨title, vs, htitle, hvs, rfl⟩ := hws.cons_kind
  obtain ⟨rs, hrs, herase⟩ := Statement.derivesAll ss (Block.wellFormed_mk.1 h.body) vs hvs
  refine ⟨⟨name, .mk rs []⟩, .program hopening htitle hrs hclosing, ?_⟩
  rw [Program.erase, Block.erase_mk, herase]
  rfl

end Statements

/-! ## Marks of well-formed programs -/

/-- A numeral spells the finite number to which its decimal rounds. -/
theorem Binary64.ofSpelling?_of_toBinary64 {chars : List Char} {d : Decimal} {rank : Fin rankCount}
    (hread : Decimal.ofChars? chars = some d) (hvalue : d.toBinary64 = .finite false rank) :
    Binary64.ofSpelling? (String.ofList chars) = some (.finite false rank) := by
  rw [ofSpelling?, String.toList_ofList, hread, Option.bind_some, hvalue]
  rfl

/-- Every finite number without a sign has a numeral. -/
theorem Binary64.exists_numeral {x : Binary64} (h : x.IsUnsigned) :
    ∃ spelling : String, IsNumeral spelling.toList ∧ Binary64.ofSpelling? spelling = some x := by
  obtain ⟨rank, rfl⟩ := h
  by_cases hwhole : units rank % unitsPerOne = 0
  · have hunits := (Nat.div_mul_cancel (Nat.dvd_of_mod_eq_zero hwhole)).symm
    have hdigits : ∀ c ∈ Nat.toDigits 10 (units rank / unitsPerOne), c.isDigit = true :=
      isDigit_toDigits
    have hread := Decimal.ofChars?_digits Nat.toDigits_ne_nil hdigits
    refine ⟨_, ?_, ofSpelling?_of_toBinary64 hread (toBinary64_digits hunits)⟩
    rw [String.toList_ofList]
    exact .whole Nat.toDigits_ne_nil hdigits
  · have hplaces := shortest_places_pos hwhole
    have hvalue := toBinary64_positional false hwhole
    generalize (shortest rank).1 = coefficient at hvalue
    generalize (shortest rank).2 = places at hvalue hplaces
    have hdigits : ∀ c ∈ Nat.toDigits 10 (coefficient / Nat.pow 10 places), c.isDigit = true :=
      isDigit_toDigits
    have hfraction : ∀ c ∈ fractionDigits coefficient places, c.isDigit = true :=
      isDigit_fractionDigits
    have hlength : (fractionDigits coefficient places).length = places :=
      length_fractionDigits hplaces
    have hread := Decimal.ofChars?_point Nat.toDigits_ne_nil hdigits hfraction
    rw [hlength] at hread
    refine ⟨_, ?_, ofSpelling?_of_toBinary64 hread hvalue⟩
    rw [String.toList_ofList]
    exact .point Nat.toDigits_ne_nil hdigits (List.ne_nil_of_length_pos (by omega)) hfraction

/-- The mark can be written, and what it is written as can be spelled. -/
def Mark.Writable : Mark → Prop
  | .kind k => k.Printable
  | .number x => x.IsUnsigned

/-- For a mark that can be written there is a token. -/
theorem Mark.Writable.exists_writes {m : Mark} (h : m.Writable) : ∃ k, m.Writes k := by
  cases m with
  | kind k => exact ⟨k, .kind k⟩
  | number x =>
    obtain ⟨spelling, hnumeral, hvalue⟩ := Binary64.exists_numeral h
    exact ⟨_, .number hnumeral hvalue⟩

/-- The tokens for a mark that can be written keep their kind when they are printed. -/
theorem Mark.Writable.printable {m : Mark} {k : Token.Kind} (h : m.Writable) (hk : m.Writes k) :
    k.Printable := by
  cases hk with
  | kind k => exact h
  | number hnumeral _ => exact hnumeral

/-- Every one of the marks can be written. -/
def AllWritable (ms : List Mark) : Prop :=
  ∀ m ∈ ms, m.Writable

namespace AllWritable

variable {ms ns : List Mark}

theorem nil : AllWritable [] :=
  fun _ hm => absurd hm List.not_mem_nil

theorem single {m : Mark} (h : m.Writable) : AllWritable [m] :=
  List.forall_mem_singleton.2 h

theorem append (hms : AllWritable ms) (hns : AllWritable ns) : AllWritable (ms ++ ns) :=
  List.forall_mem_append.2 ⟨hms, hns⟩

theorem word (w : Keyword) (h : AllWritable ms) : AllWritable (.word w :: ms) :=
  List.forall_mem_cons.2 ⟨trivial, h⟩

theorem sign (s : Symbol) (h : AllWritable ms) : AllWritable (.sign s :: ms) :=
  List.forall_mem_cons.2 ⟨trivial, h⟩

/-- Marks that can be written have tokens, one for each. -/
theorem exists_forall₂ (h : AllWritable ms) : ∃ ks, List.Forall₂ Mark.Writes ms ks := by
  induction ms with
  | nil => exact ⟨[], .nil⟩
  | cons m ms ih =>
    obtain ⟨hm, hms⟩ := List.forall_mem_cons.1 h
    obtain ⟨k, hk⟩ := hm.exists_writes
    obtain ⟨ks, hks⟩ := ih hms
    exact ⟨k :: ks, .cons hk hks⟩

/-- The tokens for marks that can be written keep their kinds when they are printed. -/
theorem printable {ks : List Token.Kind} (h : AllWritable ms)
    (hks : List.Forall₂ Mark.Writes ms ks) :
    ∀ k ∈ ks, k.Printable := by
  induction hks with
  | nil => exact fun _ hk => absurd hk List.not_mem_nil
  | cons hk _ ih =>
    obtain ⟨hm, hms⟩ := List.forall_mem_cons.1 h
    exact List.forall_mem_cons.2 ⟨hm.printable hk, ih hms⟩

end AllWritable

/-- Variables, texts and numbers of a source text can be written. -/
theorem Term.allWritable {t : Term} (h : t.WellFormed .source) : AllWritable t.marks := by
  cases t with
  | var v => exact .single h
  | text body => exact .single h
  | number x => exact .single h

theorem Literal.allWritable {l : Literal} (h : l.WellFormed .source) : AllWritable l.marks := by
  cases l with
  | text body => exact .single h
  | number x => exact .single h

theorem Term.allWritable_sum {ts : List Term} (h : ∀ t ∈ ts, t.WellFormed .source) :
    AllWritable (Term.sumMarks ts) := by
  induction ts with
  | nil => exact .nil
  | cons t ts ih =>
    obtain ⟨ht, hts⟩ := List.forall_mem_cons.1 h
    cases ts with
    | nil => exact Term.allWritable ht
    | cons u us => exact (Term.allWritable ht).append ((ih hts).sign .plus)

theorem Term.allWritable_params {ts : List Term} (h : ∀ t ∈ ts, t.WellFormed .source) :
    AllWritable (Term.paramMarks ts) :=
  ((Term.allWritable_sum h).sign .openBracket).append (AllWritable.nil.sign .closeBracket)

theorem Value.allWritable {v : Value} (h : v.WellFormed .source) : AllWritable v.marks := by
  cases v with
  | term t => exact Term.allWritable h
  | input prompt => exact (Term.allWritable_params h).word .IN

theorem Operand.allWritable {o : Operand} (h : o.WellFormed .source) : AllWritable o.marks := by
  induction o with
  | term t => exact Term.allWritable h
  | condition negated r left right ihl ihr =>
    have hplain := ((ihl h.1).sign r.symbol).append (ihr h.2)
    cases negated with
    | false => exact hplain
    | true => exact hplain.sign .bang

theorem Condition.allWritable {c : Condition} (h : c.WellFormed .source) : AllWritable c.marks :=
  Operand.allWritable h

mutual

/-- A statement over the alphabet of source texts can be written: each of its names, texts and
numbers has a spelling. -/
theorem Statement.allWritable : ∀ s : Statement, s.WellFormed .source → AllWritable s.marks
  | .assign target value none, h => by
    obtain ⟨htarget, hvalue⟩ := Statement.wellFormed_assign.1 h
    have hname : AllWritable target.marks := .single htarget
    exact ((hname.sign .assign).append (Value.allWritable hvalue)).append
      (AllWritable.nil.sign .colon)
  | .assign target value (some operator), h => by
    obtain ⟨htarget, hvalue⟩ := Statement.wellFormed_assign.1 h
    have hname : AllWritable target.marks := .single htarget
    exact (((hname.sign .assign).append (Value.allWritable hvalue)).append
      (AllWritable.nil.sign operator.symbol)).append (AllWritable.nil.sign .colon)
  | .output terms, h =>
    ((Term.allWritable_params (Statement.wellFormed_output.1 h)).word .OUT).append
      (AllWritable.nil.sign .colon)
  | .whileLoop test body, h => by
    obtain ⟨htest, hbody⟩ := Statement.wellFormed_whileLoop.1 h
    exact (((Condition.allWritable htest).word .WHEN).append (Block.allWritable body hbody)).append
      (AllWritable.nil.word .ENDWHEN)
  | .untilLoop body test, h => by
    obtain ⟨hbody, htest⟩ := Statement.wellFormed_untilLoop.1 h
    exact (((Block.allWritable body hbody).word .REPEAT).append
      ((Condition.allWritable htest).word .UNTIL)).append (AllWritable.nil.word .ENDREPEAT)
  | .forLoop counter start stop step body, h => by
    obtain ⟨hcounter, hstart, hstop, hstep, _, hbody⟩ := Statement.wellFormed_forLoop.1 h
    have hname : AllWritable counter.marks := .single hcounter
    have hnumber : ∀ {x : Binary64}, x.IsUnsigned → AllWritable [.number x] := fun hx => .single hx
    exact (((((hname.word .FOR).append ((hnumber hstart).word .FROM)).append
      ((hnumber hstop).word .TO)).append ((hnumber hstep).word .BY)).append
      (Block.allWritable body hbody)).append (AllWritable.nil.word .ENDFOR)
  | .choice [], h => absurd h Statement.not_wellFormed_choice_nil
  | .choice ((none, _) :: _), h => absurd h Statement.not_wellFormed_choice_none
  | .choice ((some test, body) :: others), h => by
    obtain ⟨htest, hbody, hothers⟩ := Statement.wellFormed_choice.1 h
    exact ((((Condition.allWritable htest).word .IF).append (Block.allWritable body hbody)).append
      (Statement.allWritable_branches others hothers)).append (AllWritable.nil.word .ENDIF)
  | .switch subject arms, h => by
    obtain ⟨hsubject, harms⟩ := Statement.wellFormed_switch.1 h
    have hname : AllWritable subject.marks := .single hsubject
    exact ((hname.word .SWITCH).append (Statement.allWritable_arms arms harms)).append
      (AllWritable.nil.word .ENDSWITCH)
theorem Statement.allWritable_all : ∀ ss : List Statement, Statement.allWellFormed .source ss →
    AllWritable (Statement.allMarks ss)
  | [], _ => .nil
  | s :: ss, h => by
    obtain ⟨hs, hss⟩ := Statement.allWellFormed_cons.1 h
    exact (Statement.allWritable s hs).append (Statement.allWritable_all ss hss)
theorem Block.allWritable : ∀ b : Block, b.WellFormed .source → AllWritable b.marks
  | .mk ss _, h =>
    ((Statement.allWritable_all ss (Block.wellFormed_mk.1 h)).word .DO).append
      (AllWritable.nil.word .ENDDO)
theorem Statement.allWritable_branches : ∀ branches : List (Option Condition × Block),
    Statement.wellFormedBranches .source branches → AllWritable (Statement.branchMarks branches)
  | [], _ => .nil
  | (some test, body) :: others, h => by
    obtain ⟨htest, hbody, hothers⟩ := Statement.wellFormedBranches_some.1 h
    exact ((((Condition.allWritable htest).word .IF).word .OTHERWISE).append
      (Block.allWritable body hbody)).append (Statement.allWritable_branches others hothers)
  | (none, body) :: _, h =>
    (Block.allWritable body (Statement.wellFormedBranches_none.1 h).1).word .OTHERWISE
theorem Statement.allWritable_arms : ∀ arms : List (Literal × Block),
    Statement.wellFormedArms .source arms → AllWritable (Statement.armMarks arms)
  | [], _ => .nil
  | (label, body) :: others, h => by
    obtain ⟨hlabel, hbody, hothers⟩ := Statement.wellFormedArms_cons.1 h
    exact (((Literal.allWritable hlabel).word .WHEN).append (Block.allWritable body hbody)).append
      (Statement.allWritable_arms others hothers)
end

/-- A program over the alphabet of source texts can be written. -/
theorem Program.allWritable {p : Program} (h : p.WellFormed .source) : AllWritable p.marks := by
  obtain ⟨name, ss, ds⟩ := p
  have hbody := Statement.allWritable_all ss (Block.wellFormed_mk.1 h.body)
  have htitle : AllWritable (.kind (.ident name) :: Statement.allMarks ss) :=
    List.forall_mem_cons.2 ⟨h.name, hbody⟩
  exact (htitle.word .PROG).append (AllWritable.nil.word .ENDPROG)

/-! ## Reading what was written -/

/-- A well-formed program can be written out, whatever numerals are chosen for its numbers. The text
is cut into exactly the tokens that were written, and they are read without a fault as the same
program, up to the places of its variables. -/
theorem Program.ofTokens_print {p : Program} (h : p.WellFormed .source) :
    (∃ ks, List.Forall₂ Mark.Writes p.marks ks) ∧
    ∀ ks, List.Forall₂ Mark.Writes p.marks ks →
      (Token.ofSource (Token.print ks)).map Token.kind = ks ∧
      (Token.ofSource (Token.print ks)).map Token.lexeme = ks.map Token.Kind.spelling ∧
      ∃ q, Reading.ofTokens (Token.ofSource (Token.print ks)) = ⟨some q, p.name, [], false⟩ ∧
        q.erase id = p.bare := by
  refine ⟨(Program.allWritable h).exists_forall₂, fun ks hks => ?_⟩
  obtain ⟨hkinds, hlexemes⟩ := Token.ofSource_print ((Program.allWritable h).printable hks)
  refine ⟨hkinds, hlexemes, ?_⟩
  have hwritten : Written p.marks (Token.ofSource (Token.print ks)) := by
    rw [← hkinds] at hks
    exact List.forall₂_map_right_iff.1 hks
  -- The grammar is deterministic, so the program derived here is the one that is read.
  obtain ⟨q, hq, herase⟩ := Program.derives h hwritten
  have hname : (q.erase id).name = p.bare.name := congrArg Program.name herase
  refine ⟨q, ?_, herase⟩
  rw [Reading.ofTokens_eq_of_derives hq]
  exact congrArg (Reading.mk (some q) · [] false) hname

/-- The number 7.5. -/
def sevenAndAHalf : Binary64 :=
  .finite false ⟨4620130267728707584, by decide⟩

/-- A program whose name begins like a keyword, with a string that looks like tokens
and a comment. -/
def keywordLikeProgram : Program :=
  ⟨"PROGRAM", .mk [
    .output [.text "# OUT :", .var ⟨"A1", ⟨3, 4⟩⟩, .number sevenAndAHalf],
    .choice [(some ⟨true, .equal, .term (.var ⟨"B", ⟨5, 6⟩⟩), .term (.text "")⟩, .mk [] []),
      (none, .mk [] [])]] []⟩

/-- The tokens of the program, with a numeral that is longer than it needs to be. -/
def keywordLikeProgramKinds : List Token.Kind :=
  [.keyword .PROG, .ident "PROGRAM", .keyword .OUT, .symbol .openBracket, .text "# OUT :",
    .symbol .plus, .var "A1", .symbol .plus, .number "007.50", .symbol .closeBracket,
    .symbol .colon, .keyword .IF, .symbol .bang, .symbol .equal, .var "B", .text "", .keyword .DO,
    .keyword .ENDDO, .keyword .OTHERWISE, .keyword .DO, .keyword .ENDDO, .keyword .ENDIF,
    .keyword .ENDPROG]

theorem keywordLikeProgram_print :
    keywordLikeProgram.WellFormed .source ∧
      List.Forall₂ Mark.Writes keywordLikeProgram.marks keywordLikeProgramKinds ∧
    Token.print keywordLikeProgramKinds
      = "PROG PROGRAM OUT [ \"# OUT :\" + A1 + 007.50 ] : IF ! == B \"\" DO ENDDO"
      ++ " OTHERWISE DO ENDDO ENDIF ENDPROG" ∧
    (Token.ofSource (Token.print keywordLikeProgramKinds)).map Token.kind
      = keywordLikeProgramKinds ∧
    (Token.ofSource (Token.print keywordLikeProgramKinds)).map Token.lexeme
      = keywordLikeProgramKinds.map Token.Kind.spelling ∧
    ∃ q, Reading.ofTokens (Token.ofSource (Token.print keywordLikeProgramKinds))
        = ⟨some q, "PROGRAM", [], false⟩ ∧ q.erase id = keywordLikeProgram.bare := by
  have hwf : keywordLikeProgram.WellFormed .source := by
    refine ⟨⟨by decide, by decide, by decide, by decide⟩, ?_,
      ⟨⟨rfl, rfl⟩, trivial, trivial, rfl⟩, trivial⟩
    exact List.forall_mem_cons.2 ⟨rfl,
      List.forall_mem_cons.2 ⟨rfl, List.forall_mem_singleton.2 ⟨_, rfl⟩⟩⟩
  have hvalue : Binary64.ofSpelling? "007.50" = some sevenAndAHalf := by decide +kernel
  have hnumeral : IsNumeral "007.50".toList :=
    .point (List.cons_ne_nil '0' ['0', '7']) (List.all_eq_true.1 rfl)
      (List.cons_ne_nil '5' ['0']) (List.all_eq_true.1 rfl)
  have hks : List.Forall₂ Mark.Writes keywordLikeProgram.marks keywordLikeProgramKinds := by
    iterate 8 refine .cons (.kind _) ?_
    refine .cons (.number hnumeral hvalue) ?_
    iterate 14 refine .cons (.kind _) ?_
    exact .nil
  exact ⟨hwf, hks, by decide, (Program.ofTokens_print hwf).2 _ hks⟩

end Zed
