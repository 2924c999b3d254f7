import Zed.Proofs.Grammar.Course

/-!
# Well-formed programs

A program is well formed over an *alphabet*, which says what its leaves may be: names of variables,
bodies of strings, numbers, the name of the program. Beyond its leaves, the branches of a choice
form a chain, where only the last one lacks a condition, and no loop has a step of zero.

Main result: whatever comes out of tokens that the alphabet admits is well formed
(`Reading.wellFormed_of_program_eq_some`), faults or not. By induction on the derivation this holds
of every phrase, first of those without a block and then of those that were read with recovery.
-/

set_option autoImplicit false

namespace Zed

/-- What the leaves of a program may be. -/
structure Alphabet where
  /-- The names of variables. -/
  name : String → Prop
  /-- The bodies of strings. -/
  body : String → Prop
  /-- The numbers. -/
  value : Binary64 → Prop
  /-- The names of programs. -/
  ident : String → Prop

/-- The kinds of token whose payload is in the alphabet. A number may be out of range: then it
has no value. -/
def Alphabet.Admits (a : Alphabet) : Token.Kind → Prop
  | .var name => a.name name
  | .text body => a.body body
  | .number spelling => ∀ x, Binary64.ofSpelling? spelling = some x → a.value x
  | .ident name => a.ident name
  | _ => True

/-! ## Trees over an alphabet -/

def Term.WellFormed (a : Alphabet) : Term → Prop
  | .var v => a.name v.name
  | .text body => a.body body
  | .number x => a.value x

def Literal.WellFormed (a : Alphabet) : Literal → Prop
  | .text body => a.body body
  | .number x => a.value x

def Value.WellFormed (a : Alphabet) : Value → Prop
  | .term t => t.WellFormed a
  | .input prompt => ∀ t ∈ prompt, t.WellFormed a

def Operand.WellFormed (a : Alphabet) : Operand → Prop
  | .term t => t.WellFormed a
  | .condition _ _ left right => left.WellFormed a ∧ right.WellFormed a

def Condition.WellFormed (a : Alphabet) (c : Condition) : Prop :=
  c.left.WellFormed a ∧ c.right.WellFormed a

mutual
def Statement.WellFormed (a : Alphabet) : Statement → Prop
  | .assign target value _ => a.name target.name ∧ value.WellFormed a
  | .output terms => ∀ t ∈ terms, t.WellFormed a
  | .whileLoop test body => test.WellFormed a ∧ Block.WellFormed a body
  | .untilLoop body test => Block.WellFormed a body ∧ test.WellFormed a
  | .forLoop counter start stop step body =>
    a.name counter.name ∧ a.value start ∧ a.value stop ∧ a.value step ∧ step.isZero = false ∧
      Block.WellFormed a body
  | .choice [] => False
  | .choice ((none, _) :: _) => False
  | .choice ((some test, body) :: others) =>
    test.WellFormed a ∧ Block.WellFormed a body ∧ Statement.wellFormedBranches a others
  | .switch subject arms => a.name subject.name ∧ Statement.wellFormedArms a arms
/-- Every statement is well formed. -/
def Statement.allWellFormed (a : Alphabet) : List Statement → Prop
  | [] => True
  | s :: ss => Statement.WellFormed a s ∧ Statement.allWellFormed a ss
def Block.WellFormed (a : Alphabet) : Block → Prop
  | .mk ss _ => Statement.allWellFormed a ss
/-- The branches after the first one; one without a condition is the last. -/
def Statement.wellFormedBranches (a : Alphabet) : List (Option Condition × Block) → Prop
  | [] => True
  | (some test, body) :: others =>
    test.WellFormed a ∧ Block.WellFormed a body ∧ Statement.wellFormedBranches a others
  | (none, body) :: others => Block.WellFormed a body ∧ others = []
/-- Every arm is well formed. -/
def Statement.wellFormedArms (a : Alphabet) : List (Literal × Block) → Prop
  | [] => True
  | (label, body) :: others =>
    label.WellFormed a ∧ Block.WellFormed a body ∧ Statement.wellFormedArms a others
end

section Constructors

variable {a : Alphabet} {target counter subject : Variable} {value : Value}
  {operator : Option Arithmetic} {terms : List Term} {test : Condition} {body : Block}
  {start stop step : Binary64} {label : Literal} {s : Statement} {ss : List Statement}
  {ds : List Diagnostic} {branches : List (Option Condition × Block)}
  {arms : List (Literal × Block)}

theorem Statement.wellFormed_assign : (Statement.assign target value operator).WellFormed a ↔
    a.name target.name ∧ value.WellFormed a := Iff.rfl

theorem Statement.wellFormed_output : (Statement.output terms).WellFormed a ↔
    ∀ t ∈ terms, t.WellFormed a := Iff.rfl

theorem Statement.wellFormed_whileLoop : (Statement.whileLoop test body).WellFormed a ↔
    test.WellFormed a ∧ body.WellFormed a := Iff.rfl

theorem Statement.wellFormed_untilLoop : (Statement.untilLoop body test).WellFormed a ↔
    body.WellFormed a ∧ test.WellFormed a := Iff.rfl

/-- Besides its name, its bounds and its body, a counting loop needs a step that is not zero. -/
theorem Statement.wellFormed_forLoop :
    (Statement.forLoop counter start stop step body).WellFormed a ↔
    a.name counter.name ∧ a.value start ∧ a.value stop ∧ a.value step ∧ step.isZero = false ∧
      body.WellFormed a := Iff.rfl

/-- A choice is well formed only if a condition guards its first branch. -/
theorem Statement.wellFormed_choice :
    (Statement.choice ((some test, body) :: branches)).WellFormed a ↔
      test.WellFormed a ∧ body.WellFormed a ∧ Statement.wellFormedBranches a branches := Iff.rfl

/-- A choice has at least one branch. -/
theorem Statement.not_wellFormed_choice_nil : ¬ (Statement.choice []).WellFormed a := id

/-- The branch without a condition is never the first one. -/
theorem Statement.not_wellFormed_choice_none :
    ¬ (Statement.choice ((none, body) :: branches)).WellFormed a := id

theorem Statement.wellFormed_switch : (Statement.switch subject arms).WellFormed a ↔
    a.name subject.name ∧ Statement.wellFormedArms a arms := Iff.rfl

theorem Statement.allWellFormed_cons : Statement.allWellFormed a (s :: ss) ↔
    s.WellFormed a ∧ Statement.allWellFormed a ss := Iff.rfl

theorem Block.wellFormed_mk :
    (Block.mk ss ds).WellFormed a ↔ Statement.allWellFormed a ss := Iff.rfl

theorem Statement.wellFormedBranches_some :
    Statement.wellFormedBranches a ((some test, body) :: branches) ↔
      test.WellFormed a ∧ body.WellFormed a ∧ Statement.wellFormedBranches a branches := Iff.rfl

/-- The branch without a condition is the last one. -/
theorem Statement.wellFormedBranches_none :
    Statement.wellFormedBranches a ((none, body) :: branches) ↔ body.WellFormed a ∧
      branches = [] := Iff.rfl

theorem Statement.wellFormedArms_cons : Statement.wellFormedArms a ((label, body) :: arms) ↔
    label.WellFormed a ∧ body.WellFormed a ∧ Statement.wellFormedArms a arms := Iff.rfl

end Constructors

/-- A well-formed body under a name in the alphabet. -/
structure Program.WellFormed (a : Alphabet) (p : Program) : Prop where
  name : a.ident p.name
  body : p.body.WellFormed a

/-! ## Phrases over an alphabet -/

/-- What a phrase is read as is well formed. -/
def Phrase.WellFormed (a : Alphabet) : Phrase → Prop
  | .var v => a.name v.name
  | .number x => a.value x
  | .literal label => label.WellFormed a
  | .term t => t.WellFormed a
  | .sum ts => ∀ t ∈ ts, t.WellFormed a
  | .params ts => ∀ t ∈ ts, t.WellFormed a
  | .value v => v.WellFormed a
  | .operand o => o.WellFormed a
  | .condition c => c.WellFormed a
  | .simple s => s.WellFormed a
  | .compound s => s.WellFormed a
  | .items ss => Statement.allWellFormed a ss
  | .doBlock body => body.WellFormed a
  | .branches others => Statement.wellFormedBranches a others
  | .arms others => Statement.wellFormedArms a others
  | .program p => p.WellFormed a

section Phrases

variable {a : Alphabet} {ts us : List Token} {t : Token} {phrase : Phrase}

/-- The tokens are admitted, all of them. -/
def Alphabet.AdmitsAll (a : Alphabet) (ts : List Token) : Prop :=
  ∀ t ∈ ts, a.Admits t.kind

/-- An alphabet admits a list of tokens if it admits the first one and the rest. -/
theorem Alphabet.admitsAll_cons : a.AdmitsAll (t :: ts) ↔ a.Admits t.kind ∧ a.AdmitsAll ts :=
  List.forall_mem_cons

/-- An alphabet admits two lists of tokens in a row if it admits both. -/
theorem Alphabet.admitsAll_append : a.AdmitsAll (ts ++ us) ↔ a.AdmitsAll ts ∧ a.AdmitsAll us :=
  List.forall_mem_append

/-- Phrases without a block are well formed. The payload of the single token that a leaf is derived
from is in the alphabet, and everything else is put together from leaves. -/
theorem Derives.wellFormed (h : Derives ts phrase) (hplain : phrase.isPlain = true)
    (hts : a.AdmitsAll ts) : phrase.WellFormed a := by
  induction h with
  | var hkind =>
    have ht := (Alphabet.admitsAll_cons.1 hts).1
    rw [hkind] at ht
    exact ht
  | number hkind hvalue =>
    have ht := (Alphabet.admitsAll_cons.1 hts).1
    rw [hkind] at ht
    exact ht _ hvalue
  | textLiteral hkind | textTerm hkind =>
    have ht := (Alphabet.admitsAll_cons.1 hts).1
    rw [hkind] at ht
    exact ht
  | numberLiteral _ ih | varTerm _ ih | numberTerm _ ih | termOperand _ ih | termValue _ ih =>
    exact ih rfl hts
  | lastTerm _ ih => exact List.forall_mem_singleton.2 (ih rfl hts)
  | nextTerm _ _ _ ih ihs =>
    obtain ⟨hts, hus⟩ := Alphabet.admitsAll_append.1 hts
    exact List.forall_mem_cons.2 ⟨ih rfl hts, ihs rfl (Alphabet.admitsAll_cons.1 hus).2⟩
  | noParams => exact fun _ ht => absurd ht List.not_mem_nil
  | someParams _ _ _ ih =>
    obtain ⟨hts, -⟩ := Alphabet.admitsAll_append.1 hts
    exact ih rfl (Alphabet.admitsAll_cons.1 hts).2
  | conditionOperand _ ih => exact ih rfl hts
  | relation _ _ _ ihleft ihright =>
    obtain ⟨hls, hrs⟩ := Alphabet.admitsAll_append.1 hts
    exact ⟨ihleft rfl (Alphabet.admitsAll_cons.1 hls).2, ihright rfl hrs⟩
  | negation _ _ ih => exact ih rfl (Alphabet.admitsAll_cons.1 hts).2
  | inputValue _ _ ih | output _ _ ih => exact ih rfl (Alphabet.admitsAll_cons.1 hts).2
  | assignment _ _ _ ihtarget ihgiven =>
    obtain ⟨hvs, hts⟩ := Alphabet.admitsAll_append.1 hts
    exact ⟨ihtarget rfl (Alphabet.admitsAll_cons.1 hvs).2, ihgiven rfl hts⟩
  | update _ _ _ _ ihtarget ihgiven =>
    obtain ⟨hts, -⟩ := Alphabet.admitsAll_append.1 hts
    obtain ⟨hvs, hts⟩ := Alphabet.admitsAll_append.1 hts
    exact ⟨ihtarget rfl (Alphabet.admitsAll_cons.1 hvs).2, ihgiven rfl hts⟩
  | noItem | colonItem | simpleItem | compoundItem | doBlock | whileLoop | untilLoop | forLoop
  | choice | noBranch | lastBranch | nextBranch | switch | noArm | nextArm | program => cases hplain

/-- What is read with recovery is well formed too: refused tokens leave no trace in the phrase. -/
theorem Recovers.wellFormed {ds : List Diagnostic} (h : Recovers ts phrase ds)
    (hts : a.AdmitsAll ts) : phrase.WellFormed a := by
  induction h with
  | noItem | noBranch | noArm => trivial
  | colonItem _ _ ih => exact ih (Alphabet.admitsAll_cons.1 hts).2
  -- refused tokens are in the alphabet too, but nothing is read from them
  | refusedItem _ _ ih => exact ih (Alphabet.admitsAll_append.1 hts).2
  | simpleItem hsimple _ _ ih =>
    obtain ⟨hus, hts⟩ := Alphabet.admitsAll_append.1 hts
    exact Statement.allWellFormed_cons.2 ⟨hsimple.wellFormed rfl hus, ih hts⟩
  | compoundItem _ _ ihs ih =>
    obtain ⟨hus, hts⟩ := Alphabet.admitsAll_append.1 hts
    exact Statement.allWellFormed_cons.2 ⟨ihs hus, ih hts⟩
  | doBlock _ _ _ ih =>
    obtain ⟨hts, -⟩ := Alphabet.admitsAll_append.1 hts
    exact ih (Alphabet.admitsAll_cons.1 hts).2
  | whileLoop _ htest _ _ ih =>
    simp only [Alphabet.admitsAll_append, Alphabet.admitsAll_cons] at hts
    obtain ⟨⟨⟨-, hcs⟩, hbs⟩, -⟩ := hts
    exact Statement.wellFormed_whileLoop.2 ⟨htest.wellFormed rfl hcs, ih hbs⟩
  | untilLoop _ _ _ htest _ ih =>
    simp only [Alphabet.admitsAll_append, Alphabet.admitsAll_cons] at hts
    obtain ⟨⟨⟨-, hbs⟩, -, hcs⟩, -⟩ := hts
    exact Statement.wellFormed_untilLoop.2 ⟨ih hbs, htest.wellFormed rfl hcs⟩
  | forLoop _ hcounter _ hstart _ hstop _ hstep hzero _ _ ih =>
    simp only [Alphabet.admitsAll_append, Alphabet.admitsAll_cons] at hts
    obtain ⟨⟨⟨⟨⟨⟨-, hvs⟩, -, has⟩, -, hos⟩, -, hss⟩, hbs⟩, -⟩ := hts
    exact Statement.wellFormed_forLoop.2 ⟨hcounter.wellFormed rfl hvs, hstart.wellFormed rfl has,
      hstop.wellFormed rfl hos, hstep.wellFormed rfl hss, hzero, ih hbs⟩
  | choice _ htest _ _ _ ihbody ih =>
    simp only [Alphabet.admitsAll_append, Alphabet.admitsAll_cons] at hts
    obtain ⟨⟨⟨⟨-, hcs⟩, hbs⟩, hos⟩, -⟩ := hts
    exact Statement.wellFormed_choice.2 ⟨htest.wellFormed rfl hcs, ihbody hbs, ih hos⟩
  | lastBranch _ _ ih =>
    exact Statement.wellFormedBranches_none.2 ⟨ih (Alphabet.admitsAll_cons.1 hts).2, rfl⟩
  | nextBranch _ _ htest _ _ ihbody ih =>
    simp only [Alphabet.admitsAll_append, Alphabet.admitsAll_cons] at hts
    obtain ⟨⟨⟨-, -, hcs⟩, hbs⟩, hos⟩ := hts
    exact Statement.wellFormedBranches_some.2 ⟨htest.wellFormed rfl hcs, ihbody hbs, ih hos⟩
  | switch _ hsubject _ _ ih =>
    simp only [Alphabet.admitsAll_append, Alphabet.admitsAll_cons] at hts
    obtain ⟨⟨⟨-, hvs⟩, has⟩, -⟩ := hts
    exact Statement.wellFormed_switch.2 ⟨hsubject.wellFormed rfl hvs, ih has⟩
  | nextArm _ hlabel _ _ ihbody ih =>
    simp only [Alphabet.admitsAll_append, Alphabet.admitsAll_cons] at hts
    obtain ⟨⟨⟨-, hls⟩, hbs⟩, has⟩ := hts
    exact Statement.wellFormedArms_cons.2 ⟨hlabel.wellFormed rfl hls, ihbody hbs, ih has⟩

end Phrases

/-- Whatever program is read from admitted tokens is well formed. -/
theorem Reading.wellFormed_of_program_eq_some {a : Alphabet} {tokens : List Token} {p : Program}
    (hts : ∀ t ∈ tokens, a.Admits t.kind) (hp : (ofTokens tokens).program = some p) :
    p.WellFormed a := by
  obtain ⟨opening, title, us, closing, rest, rfl, -, htitle, hus, -, -⟩ :=
    recovers_of_program_eq_some hp
  obtain ⟨hfront, -⟩ := Alphabet.admitsAll_append.1 hts
  obtain ⟨-, hfront⟩ := Alphabet.admitsAll_cons.1 hfront
  obtain ⟨hname, hbody⟩ := Alphabet.admitsAll_cons.1 hfront
  rw [htitle] at hname
  have hstatements := hus.wellFormed hbody
  obtain ⟨name, ⟨ss, ds⟩⟩ := p
  exact ⟨hname, hstatements⟩

end Zed
