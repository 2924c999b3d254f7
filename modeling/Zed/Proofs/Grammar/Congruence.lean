import Mathlib.Logic.Basic
import Zed.Proofs.Grammar.Reads
import Zed.Proofs.Program.Erasure

/-!
# Relations that the whole grammar respects

A property of rules, or a relation between two of them, usually passes from the parts of a rule to
the whole. `Congruence` lists what has to be shown for that: one field for each primitive and one
for each way to put rules together. `Recovering` adds what a block needs beyond that. The rest of
this module goes through the grammar once and gives, for every such relation, the rules for
statements and for blocks.

The two rules need not read the same tokens. A `View` says what counts of a token, of a value and of
a diagnostic, and the values of related rules look alike in that view. The second rule may also have
more fuel than the first: where the first has none left, the relation holds between it and any rule.

An optional token is the one lookahead that says no at the end of the tokens. What follows it
in the grammar then finds no token either, so the field `ahead` may assume that nothing comes
of the first rule.
-/

set_option autoImplicit false

namespace Zed

variable {α β γ δ τ κ : Type}

/-! ## Views -/

/-- What counts of a token, of a variable, of the diagnostics that a block keeps, and of a
diagnostic. Tokens that look alike are of one kind, and what is made of them looks alike. What a
block keeps may be left out, but where diagnostics look alike the same is kept of them. -/
structure View (τ κ : Type) where
  /-- What counts of a token. -/
  token : Token → τ
  /-- What counts of a variable. -/
  rename : Variable → Variable
  /-- What counts of the diagnostics of a block inside a statement. -/
  kept : List Diagnostic → List Diagnostic
  /-- What counts of a diagnostic. -/
  see : Diagnostic → κ
  kind_eq : ∀ {t u : Token}, token t = token u → t.kind = u.kind
  rename_eq : ∀ {t u : Token}, token t = token u → ∀ name : String,
    rename ⟨name, t.position⟩ = rename ⟨name, u.position⟩
  see_eq : ∀ {t u : Token}, token t = token u → ∀ wanted : Expectation,
    see (wanted.blame t) = see (wanted.blame u)
  kept_eq : ∀ {ds es : List Diagnostic}, ds.map see = es.map see → kept ds = kept es

namespace View

variable (v : View τ κ)

/-- The tokens look alike, one by one. -/
def Sees (ts us : List Token) : Prop :=
  ts.map v.token = us.map v.token

/-- What counts of a list of diagnostics. -/
def reports (ds : List Diagnostic) : List κ :=
  ds.map v.see

/-- What counts of a statement. -/
def statement : Statement → Statement :=
  Statement.map v.rename v.kept

/-- What counts of a block that was just read. Its diagnostics are still to be reported. -/
def block (b : Block) : Block × List κ :=
  (b.map v.rename v.kept, v.reports b.diagnostics)

/-- What counts of a value that comes with diagnostics. -/
def reported (f : α → β) (found : Rule.Reported α) : β × List κ :=
  (f found.1, v.reports found.2)

variable {v} {t u : Token}

/-- Reports in a row look alike if their parts do. -/
theorem reports_append {ds ds' es es' : List Diagnostic} (h : v.reports ds = v.reports ds')
    (h' : v.reports es = v.reports es') : v.reports (ds ++ es) = v.reports (ds' ++ es') := by
  rw [reports, reports, List.map_append, List.map_append]
  exact congrArg₂ (· ++ ·) h h'

/-- Tokens that look alike are the same keyword, if they are one. -/
theorem isKeyword_eq (h : v.token t = v.token u) (word : Keyword) :
    t.isKeyword word = u.isKeyword word := by
  rw [Token.isKeyword, v.kind_eq h, Token.isKeyword]

/-- Tokens that look alike are the same symbol, if they are one. -/
theorem isSymbol_eq (h : v.token t = v.token u) (sign : Symbol) :
    t.isSymbol sign = u.isSymbol sign := by
  rw [Token.isSymbol, v.kind_eq h, Token.isSymbol]

theorem relation?_eq (h : v.token t = v.token u) : t.relation? = u.relation? := by
  rw [Token.relation?, v.kind_eq h, Token.relation?]

theorem startsCondition_eq (h : v.token t = v.token u) :
    t.startsCondition = u.startsCondition := by
  rw [Token.startsCondition, isSymbol_eq h, relation?_eq h, Token.startsCondition]

/-- Of tokens that look alike, both or none end a block. -/
theorem isCloser_eq (h : v.token t = v.token u) : t.isCloser = u.isCloser := by
  rw [Token.isCloser, v.kind_eq h, Token.isCloser]

/-- A block in front of which a part is put looks the same if the part and the block do. -/
theorem block_prepend {ss ss' : List Statement} {ds es : List Diagnostic} {b b' : Block}
    (hss : ss.map v.statement = ss'.map v.statement) (hds : v.reports ds = v.reports es)
    (hb : v.block b = v.block b') :
    v.block (.mk (ss ++ b.statements) (ds ++ b.diagnostics))
      = v.block (.mk (ss' ++ b'.statements) (es ++ b'.diagnostics)) := by
  obtain ⟨rest, found⟩ := b
  obtain ⟨rest', found'⟩ := b'
  obtain ⟨hmap, hfound⟩ := Prod.ext_iff.1 hb
  have hrest : rest.map v.statement = rest'.map v.statement := by
    have hall : Statement.mapAll v.rename v.kept rest = Statement.mapAll v.rename v.kept rest' :=
      (Block.mk.inj hmap).1
    rwa [Statement.mapAll_eq_map, Statement.mapAll_eq_map] at hall
  have hreports : v.reports (ds ++ found) = v.reports (es ++ found') := reports_append hds hfound
  refine Prod.ext ?_ hreports
  have hstatements : Statement.mapAll v.rename v.kept (ss ++ rest)
      = Statement.mapAll v.rename v.kept (ss' ++ rest') := by
    rw [Statement.mapAll_eq_map, Statement.mapAll_eq_map, List.map_append, List.map_append]
    exact congrArg₂ (· ++ ·) hss hrest
  exact congrArg₂ Block.mk hstatements (v.kept_eq hreports)

end View

/-! ## Congruences -/

/-- Both tokens are accepted, with values that look alike, or both are refused for
the same thing. -/
inductive SameAnswer (f : α → β) : Except Expectation α → Except Expectation α → Prop
  | ok {a b : α} : f a = f b → SameAnswer f (.ok a) (.ok b)
  | error (wanted : Expectation) : SameAnswer f (.error wanted) (.error wanted)

/-- Equal answers are the same answer. -/
theorem SameAnswer.of_eq {f : α → β} {x y : Except Expectation α} (h : x = y) :
    SameAnswer f x y := by
  subst h
  cases x with
  | ok a => exact .ok rfl
  | error wanted => exact .error wanted

/-- The rule looks at one token and reads it or leaves it in place, and does the same on tokens that
look alike. It makes no diagnostic, and its value at the end of the tokens is `no`. -/
structure Lookahead (v : View τ κ) (f : α → β) (no : α) (rule : Rule α) : Prop where
  nil : rule [] = .done no []
  quiet : ∀ ts, rule.made ts = []
  cons : ∀ {t u : Token}, v.token t = v.token u → ∃ a b, f a = f b ∧
    ((∀ ts us, rule (t :: ts) = .done a ts ∧ rule (u :: us) = .done b us) ∨
      ∀ ts us, rule (t :: ts) = .done a (t :: ts) ∧ rule (u :: us) = .done b (u :: us))

/-- A relation between rules that every way to put rules together keeps. In `R f rule full`, `f`
says what counts of the values. -/
structure Congruence (v : View τ κ)
    (R : ∀ {α β : Type}, (α → β) → Rule α → Rule α → Prop) : Prop where
  pure : ∀ {α β : Type} {f : α → β} {a b : α}, f a = f b → R f (Pure.pure a) (Pure.pure b)
  bind : ∀ {α β γ δ : Type} {f : α → β} {g : γ → δ} {rule full : Rule α} {next last : α → Rule γ},
    R f rule full → (∀ a b, f a = f b → R g (next a) (last b)) →
    R g (rule >>= next) (full >>= last)
  spent : ∀ {α β : Type} {f : α → β} {full : Rule α}, R f .spent full
  current : R v.token .current .current
  take : ∀ {α β : Type} {f : α → β} {accept : Token → Except Expectation α},
    (∀ t u, v.token t = v.token u → SameAnswer f (accept t) (accept u)) →
    R f (.take accept) (.take accept)
  ahead : ∀ {α β γ δ : Type} {f : α → β} {g : γ → δ} {no : α} {rule : Rule α}
    {next last : α → Rule γ}, Lookahead v f no rule →
    next no [] = .ended [] ∨ next no [] = .exhausted → (next no).made [] = [] →
    (∀ a b, f a = f b → R g (next a) (last b)) → R g (rule >>= next) (rule >>= last)
  step : R id Rule.step Rule.step
  after : ∀ {α β : Type} {f : α → β} {ds es : List Diagnostic} {rule full : Rule α},
    v.reports ds = v.reports es → R f rule full → R f (.after ds rule) (.after es full)

/-- A congruence that also goes through the recovery of a block. -/
structure Recovering (v : View τ κ) (R : ∀ {α β : Type}, (α → β) → Rule α → Rule α → Prop) : Prop
    extends Congruence v R where
  blame : ∀ {t u : Token} (wanted : Expectation), v.token t = v.token u →
    R v.see (.blame wanted t) (.blame wanted u)
  recover : ∀ {α β γ δ : Type} {f : α → β} {g : γ → δ} {rule full : Rule α}
    {next last : α → Rule γ} {again lastAgain : List Diagnostic → Rule γ},
    R f rule full → (∀ a b, f a = f b → R g (next a) (last b)) →
    (∀ ds es, v.reports ds = v.reports es → R g (again ds) (lastAgain es)) →
    R g (.recover rule next again) (.recover full last lastAgain)

namespace Rule

variable {v : View τ κ}

/-! ## Lookahead -/

/-- An optional token is a lookahead, if tokens that look alike are accepted alike. -/
theorem optional_lookahead {f : α → β} {accept : Token → Option α}
    (h : ∀ t u, v.token t = v.token u → (accept t).map f = (accept u).map f) :
    Lookahead v (Option.map f) none (optional accept) := by
  refine ⟨rfl, fun ts => by cases ts <;> rfl,
    fun {t u} htoken => ⟨accept t, accept u, h t u htoken, ?_⟩⟩
  have hsame := h t u htoken
  cases ht : accept t with
  | none =>
    rw [ht, Option.map_none, eq_comm, Option.map_eq_none_iff] at hsame
    refine .inr fun ts us => ?_
    rw [run_optional_cons, run_optional_cons, ht, hsame]
    exact ⟨rfl, rfl⟩
  | some a =>
    rw [ht, Option.map_some, eq_comm, Option.map_eq_some_iff] at hsame
    obtain ⟨b, hu, -⟩ := hsame
    refine .inl fun ts us => ?_
    rw [run_optional_cons, run_optional_cons, ht, hu]
    exact ⟨rfl, rfl⟩

/-- A test of the next token is a lookahead, if tokens that look alike pass it alike. -/
theorem guard_lookahead {test : Token → Bool}
    (h : ∀ t u, v.token t = v.token u → test t = test u) :
    Lookahead v id false
      (optional (Option.guard fun t => test t) >>= fun found => pure found.isSome) := by
  refine ⟨rfl, fun ts => ?_, fun {t u} htoken => ⟨test t, test u, h t u htoken, ?_⟩⟩
  · rw [made_bind]
    cases ts with
    | nil => rfl
    | cons t ts =>
      rw [run_optional_cons]
      cases Option.guard (fun t => test t) t <;> rfl
  · have hguard : ∀ w : Token, ∀ ws,
        (optional (Option.guard fun t => test t) >>= fun found => pure found.isSome) (w :: ws)
          = .done (test w) (if test w then ws else w :: ws) := by
      intro w ws
      rw [run_bind, run_optional_cons, Option.guard]
      cases test w <;> rfl
    simp only [hguard, ← h t u htoken]
    cases test t with
    | true => exact .inl fun ts us => ⟨rfl, rfl⟩
    | false => exact .inr fun ts us => ⟨rfl, rfl⟩

end Rule

namespace Congruence

variable {v : View τ κ} {R : ∀ {α β : Type}, (α → β) → Rule α → Rule α → Prop} (h : Congruence v R)
variable {fuel more : Nat} {f : α → β} {g : γ → δ}

/-- A choice between rules, made by the same test on both sides. -/
theorem ite {c : Bool} {rule full other last : Rule α} (hrule : R f rule full)
    (hother : R f other last) :
    R f (if c then rule else other) (if c then full else last) := by
  cases c with
  | true => exact hrule
  | false => exact hother

include h

/-- A value that is the same in both rules. -/
theorem bind_same {rule full : Rule α} {next last : α → Rule γ} (hrule : R id rule full)
    (hnext : ∀ a, R g (next a) (last a)) : R g (rule >>= next) (full >>= last) := by
  apply h.bind hrule
  rintro a b rfl
  exact hnext a

/-! ## Single tokens -/

theorem keyword (word : Keyword) : R id (Rule.keyword word) (Rule.keyword word) := by
  apply h.take
  intro t u htoken
  apply SameAnswer.of_eq
  rw [View.isKeyword_eq htoken]

theorem symbol (sign : Symbol) : R id (Rule.symbol sign) (Rule.symbol sign) := by
  apply h.take
  intro t u htoken
  apply SameAnswer.of_eq
  rw [View.isSymbol_eq htoken]

/-- A keyword that may be there, in front of rules that find no token at the end either. -/
theorem skipKeyword (word : Keyword) {next last : Bool → Rule γ}
    (hend : next false [] = .ended [] ∨ next false [] = .exhausted)
    (hmade : (next false).made [] = []) (hnext : ∀ found, R g (next found) (last found)) :
    R g (Rule.skipKeyword word >>= next) (Rule.skipKeyword word >>= last) := by
  refine h.ahead (Rule.guard_lookahead fun t u htoken => View.isKeyword_eq htoken word)
    hend hmade ?_
  rintro a b rfl
  exact hnext a

/-- A symbol that may be there, in front of rules that find no token at the end either. -/
theorem skipSymbol (sign : Symbol) {next last : Bool → Rule γ}
    (hend : next false [] = .ended [] ∨ next false [] = .exhausted)
    (hmade : (next false).made [] = []) (hnext : ∀ found, R g (next found) (last found)) :
    R g (Rule.skipSymbol sign >>= next) (Rule.skipSymbol sign >>= last) := by
  refine h.ahead (Rule.guard_lookahead fun t u htoken => View.isSymbol_eq htoken sign) hend hmade ?_
  rintro a b rfl
  exact hnext a

/-- The variables of tokens that look alike are the same up to the renaming of the view. -/
theorem var : R v.rename Rule.var Rule.var := by
  apply h.take
  intro t u htoken
  rw [v.kind_eq htoken]
  split
  · exact .ok (v.rename_eq htoken _)
  · exact .error .var

theorem number : R id Rule.number Rule.number := by
  apply h.take
  intro t u htoken
  apply SameAnswer.of_eq
  rw [v.kind_eq htoken]

theorem literal : R id Rule.literal Rule.literal := by
  apply h.take
  intro t u htoken
  apply SameAnswer.of_eq
  rw [v.kind_eq htoken]

theorem term : R (Term.map v.rename) Rule.term Rule.term := by
  apply h.take
  intro t u htoken
  rw [v.kind_eq htoken]
  split
  · exact .ok (congrArg Term.var (v.rename_eq htoken _))
  · exact .ok rfl
  · exact .of_eq rfl
  · exact .error .term

theorem listGoesOn : R id Rule.listGoesOn Rule.listGoesOn := by
  apply h.take
  intro t u htoken
  apply SameAnswer.of_eq
  rw [View.isSymbol_eq htoken, View.isSymbol_eq htoken]

theorem relation : R id Rule.relation Rule.relation := by
  apply h.take
  intro t u htoken
  apply SameAnswer.of_eq
  rw [View.relation?_eq htoken]

theorem header : R id Rule.header Rule.header := by
  apply h.bind_same (h.keyword _)
  intro _
  apply h.take
  intro t u htoken
  apply SameAnswer.of_eq
  rw [v.kind_eq htoken]

/-! ## Terms and conditions -/

/-- The terms up to a bracket. With fuel left on one side there is fuel left on the other. -/
theorem termsToBracket (hle : fuel ≤ more) :
    R (List.map (Term.map v.rename)) (Rule.termsToBracket fuel) (Rule.termsToBracket more) := by
  induction fuel generalizing more with
  | zero => exact h.spent
  | succ fuel ih =>
    obtain ⟨more, rfl⟩ := Nat.exists_eq_succ_of_ne_zero (Nat.ne_zero_of_lt hle)
    apply h.bind h.term
    intro a b hfirst
    apply h.bind_same h.listGoesOn
    intro goesOn
    apply Congruence.ite
    · apply h.bind (ih (Nat.le_of_succ_le_succ hle))
      intro as bs hothers
      exact h.pure (congrArg₂ List.cons hfirst hothers)
    · exact h.pure (congrArg (fun a => [a]) hfirst)

theorem terms (hle : fuel ≤ more) :
    R (List.map (Term.map v.rename)) (Rule.terms fuel) (Rule.terms more) := by
  apply h.bind_same (h.symbol _)
  intro _
  have hend : Rule.termsToBracket fuel [] = .ended [] ∨
      Rule.termsToBracket fuel [] = .exhausted := by
    cases fuel with
    | zero => exact .inr rfl
    | succ fuel => exact .inl rfl
  have hmade : (Rule.termsToBracket fuel).made [] = [] := by
    cases fuel <;> rfl
  apply h.skipSymbol _ hend hmade
  intro empty
  exact Congruence.ite (h.pure rfl) (h.termsToBracket hle)

/-- An operand, whatever the rule for the nested condition is. -/
theorem operand {condition full : Rule Condition}
    (hcondition : R (Condition.map v.rename) condition full) :
    R (Operand.map v.rename) (Rule.operand condition) (Rule.operand full) := by
  apply h.bind h.current
  intro t u htoken
  rw [View.startsCondition_eq htoken]
  apply Congruence.ite
  · apply h.bind hcondition
    intro c d hinner
    exact h.pure (congrArg Condition.toOperand hinner)
  · apply h.bind h.term
    intro a b hleaf
    exact h.pure (congrArg Operand.term hleaf)

/-- A condition. The rule is used for its own operands, with one unit of fuel less. -/
theorem condition (hle : fuel ≤ more) :
    R (Condition.map v.rename) (Rule.condition fuel) (Rule.condition more) := by
  induction fuel generalizing more with
  | zero => exact h.spent
  | succ fuel ih =>
    obtain ⟨more, rfl⟩ := Nat.exists_eq_succ_of_ne_zero (Nat.ne_zero_of_lt hle)
    have hinner := ih (Nat.le_of_succ_le_succ hle)
    apply h.skipSymbol _ (.inl rfl) rfl
    intro negated
    apply h.bind_same h.relation
    intro operator
    apply h.bind (h.operand hinner)
    intro a b hleft
    apply h.bind (h.operand hinner)
    intro c d hright
    exact h.pure (congrArg₂ (Condition.mk negated operator) hleft hright)

theorem value (hle : fuel ≤ more) :
    R (Value.map v.rename) (Rule.value fuel) (Rule.value more) := by
  apply h.skipKeyword _ (.inl rfl) rfl
  intro isInput
  apply Congruence.ite
  · apply h.bind (h.terms hle)
    intro as bs hprompt
    exact h.pure (congrArg Value.input hprompt)
  · apply h.bind h.term
    intro a b hgiven
    exact h.pure (congrArg Value.term hgiven)

/-! ## Compound statements -/

section Compound

variable {block full : Rule Block} (hblock : R v.block block full)
include hblock

/-- A block in a statement, whatever the rule for its inside is. -/
theorem doBlock : R v.block (Rule.doBlock block) (Rule.doBlock full) :=
  h.bind_same (h.keyword _) fun _ => hblock

/-- What comes behind a block reports the diagnostics of the block first. -/
theorem doBlock_then {next last : Block → Rule γ}
    (hnext : ∀ a b, a.map v.rename v.kept = b.map v.rename v.kept →
      v.reports a.diagnostics = v.reports b.diagnostics → R g (next a) (last b)) :
    R g (Rule.doBlock block >>= fun body => .after body.diagnostics (next body))
      (Rule.doBlock full >>= fun body => .after body.diagnostics (last body)) := by
  apply h.bind (h.doBlock hblock)
  intro a b hbody
  obtain ⟨hmap, hfound⟩ := Prod.ext_iff.1 hbody
  exact h.after hfound (hnext a b hmap hfound)

theorem whileLoop (hle : fuel ≤ more) :
    R (v.reported v.statement) (Rule.whileLoop fuel block) (Rule.whileLoop more full) := by
  apply h.bind (h.condition hle)
  intro c d htest
  apply h.doBlock_then hblock
  intro a b hbody hfound
  apply h.bind_same (h.keyword _)
  intro _
  exact h.pure (Prod.ext (congrArg₂ Statement.whileLoop htest hbody) hfound)

theorem untilLoop (hle : fuel ≤ more) :
    R (v.reported v.statement) (Rule.untilLoop fuel block) (Rule.untilLoop more full) := by
  apply h.doBlock_then hblock
  intro a b hbody hfound
  apply h.bind_same (h.keyword _)
  intro _
  apply h.bind (h.condition hle)
  intro c d htest
  apply h.bind_same (h.keyword _)
  intro _
  exact h.pure (Prod.ext (congrArg₂ Statement.untilLoop hbody htest) hfound)

theorem forLoop : R (v.reported v.statement) (Rule.forLoop block) (Rule.forLoop full) := by
  apply h.bind h.var
  intro w x hcounter
  apply h.bind_same (h.keyword _)
  intro _
  apply h.bind_same h.number
  intro start
  apply h.bind_same (h.keyword _)
  intro _
  apply h.bind_same h.number
  intro stop
  apply h.bind_same (h.keyword _)
  intro _
  apply h.bind_same h.step
  intro size
  apply h.doBlock_then hblock
  intro a b hbody hfound
  apply h.bind_same (h.keyword _)
  intro _
  have hloop := congrArg₂ (Statement.forLoop · start stop size ·) hcounter hbody
  exact h.pure (Prod.ext hloop hfound)

/-- The further branches of a choice. The bodies are blocks, and each branch takes one
unit of fuel. -/
theorem otherBranches (hle : fuel ≤ more) :
    R (v.reported (Statement.mapBranches v.rename v.kept)) (Rule.otherBranches block fuel)
      (Rule.otherBranches full more) := by
  induction fuel generalizing more with
  | zero => exact h.spent
  | succ fuel ih =>
    obtain ⟨more, rfl⟩ := Nat.exists_eq_succ_of_ne_zero (Nat.ne_zero_of_lt hle)
    have hle' := Nat.le_of_succ_le_succ hle
    apply h.skipKeyword _ (.inl rfl) rfl
    intro goesOn
    apply Congruence.ite
    · apply h.skipKeyword _ (.inl rfl) rfl
      intro conditional
      apply Congruence.ite
      · apply h.bind (h.condition hle')
        intro c d htest
        apply h.doBlock_then hblock
        intro a b hbody hfound
        apply h.bind (ih hle')
        intro x y hothers
        obtain ⟨hbranches, hothers⟩ := Prod.ext_iff.1 hothers
        refine h.pure (Prod.ext ?_ ?_)
        · exact congrArg₂ List.cons (Prod.ext (congrArg some htest) hbody) hbranches
        · exact View.reports_append hfound hothers
      · apply h.doBlock_then hblock
        intro a b hbody hfound
        apply h.bind_same (h.keyword _)
        intro _
        exact h.pure (Prod.ext (congrArg (fun body => [(none, body)]) hbody) hfound)
    · exact h.bind_same (h.keyword _) fun _ => h.pure rfl

theorem choice (hle : fuel ≤ more) :
    R (v.reported v.statement) (Rule.choice fuel block) (Rule.choice more full) := by
  apply h.bind (h.condition hle)
  intro c d htest
  apply h.doBlock_then hblock
  intro a b hbody hfound
  apply h.bind (h.otherBranches hblock hle)
  intro x y hothers
  obtain ⟨hbranches, hothers⟩ := Prod.ext_iff.1 hothers
  refine h.pure (Prod.ext ?_ ?_)
  · exact congrArg Statement.choice
      (congrArg₂ List.cons (Prod.ext (congrArg some htest) hbody) hbranches)
  · exact View.reports_append hfound hothers

/-- The arms of a switch. The bodies are blocks, and each arm takes one unit of fuel. -/
theorem arms (hle : fuel ≤ more) :
    R (v.reported (Statement.mapArms v.rename v.kept)) (Rule.arms block fuel)
      (Rule.arms full more) := by
  induction fuel generalizing more with
  | zero => exact h.spent
  | succ fuel ih =>
    obtain ⟨more, rfl⟩ := Nat.exists_eq_succ_of_ne_zero (Nat.ne_zero_of_lt hle)
    apply h.skipKeyword _ (.inl rfl) rfl
    intro closed
    apply Congruence.ite
    · exact h.pure rfl
    · apply h.bind_same (h.keyword _)
      intro _
      apply h.bind_same h.literal
      intro label
      apply h.doBlock_then hblock
      intro a b hbody hfound
      apply h.bind (ih (Nat.le_of_succ_le_succ hle))
      intro x y hothers
      obtain ⟨harms, hothers⟩ := Prod.ext_iff.1 hothers
      refine h.pure (Prod.ext ?_ ?_)
      · exact congrArg₂ (fun body others => (label, body) :: others) hbody harms
      · exact View.reports_append hfound hothers

theorem switch (hle : fuel ≤ more) :
    R (v.reported v.statement) (Rule.switch fuel block) (Rule.switch more full) := by
  apply h.bind h.var
  intro w x hsubject
  apply h.bind (h.arms hblock hle)
  intro y z harms
  obtain ⟨harms, hfound⟩ := Prod.ext_iff.1 harms
  exact h.pure (Prod.ext (congrArg₂ Statement.switch hsubject harms) hfound)

/-- Both sides start statements at the same tokens, with related rules. A simple statement ends by
looking at a token that stays in place, so its two rules may stand in a weaker relation `S`. -/
theorem statement? (hle : fuel ≤ more)
    {S : Rule (Rule.Reported Statement) → Rule (Rule.Reported Statement) → Prop}
    (hS : ∀ {rule full}, R (v.reported v.statement) rule full → S rule full)
    (houtput : S (Rule.output fuel) (Rule.output more))
    (hassignment : S (Rule.assignment fuel) (Rule.assignment more)) (kind : Token.Kind) :
    (Rule.statement? fuel block kind = none ∧ Rule.statement? more full kind = none) ∨
    ∃ rule other, Rule.statement? fuel block kind = some rule ∧
      Rule.statement? more full kind = some other ∧ S rule other := by
  unfold Rule.statement?
  split
  · exact .inr ⟨_, _, rfl, rfl, houtput⟩
  · exact .inr ⟨_, _, rfl, rfl, hassignment⟩
  · exact .inr ⟨_, _, rfl, rfl, hS (h.whileLoop hblock hle)⟩
  · exact .inr ⟨_, _, rfl, rfl, hS (h.untilLoop hblock hle)⟩
  · exact .inr ⟨_, _, rfl, rfl, hS (h.forLoop hblock)⟩
  · exact .inr ⟨_, _, rfl, rfl, hS (h.choice hblock hle)⟩
  · exact .inr ⟨_, _, rfl, rfl, hS (h.switch hblock hle)⟩
  · exact .inl ⟨rfl, rfl⟩

end Compound

end Congruence

/-! ## Simple statements and blocks -/

namespace Recovering

variable {v : View τ κ} {R : ∀ {α β : Type}, (α → β) → Rule α → Rule α → Prop} (h : Recovering v R)
variable {fuel more : Nat}
include h

/-- The end of a simple statement: both rules find the colon there, or blame a token that
looks the same. -/
theorem endOfSimple {s s' : Statement} (hs : v.statement s = v.statement s') :
    R (v.reported v.statement) (Rule.endOfSimple s) (Rule.endOfSimple s') := by
  apply h.bind h.current
  intro t u htoken
  rw [View.isSymbol_eq htoken]
  apply Congruence.ite
  · exact h.pure (Prod.ext hs rfl)
  · apply h.bind (h.blame _ htoken)
    intro d e hfault
    exact h.pure (Prod.ext hs (congrArg (fun seen => [seen]) hfault))

theorem output (hle : fuel ≤ more) :
    R (v.reported v.statement) (Rule.output fuel) (Rule.output more) := by
  apply h.bind (h.terms hle)
  intro as bs hshown
  exact h.endOfSimple (congrArg Statement.output hshown)

theorem assignment (hle : fuel ≤ more) :
    R (v.reported v.statement) (Rule.assignment fuel) (Rule.assignment more) := by
  apply h.bind h.var
  intro w x htarget
  apply h.bind (h.value hle)
  intro a b hgiven
  have harithmetic : ∀ t u, v.token t = v.token u →
      (Rule.arithmetic? t).map id = (Rule.arithmetic? u).map id := by
    intro t u htoken
    rw [Rule.arithmetic?, v.kind_eq htoken, Rule.arithmetic?]
  apply h.ahead (Rule.optional_lookahead harithmetic) (.inl rfl) rfl
  intro operator other hoperator
  rw [Option.map_id, id, id] at hoperator
  rw [hoperator]
  exact h.endOfSimple (congrArg₂ (Statement.assign · · other) htarget hgiven)

/-- A part that is put in front of a block, with statements and reports that look alike. -/
theorem prepend {ss ss' : List Statement} {ds es : List Diagnostic} {rule full : Rule Block}
    (hss : ss.map v.statement = ss'.map v.statement) (hds : v.reports ds = v.reports es)
    (hrule : R v.block rule full) :
    R v.block (Rule.prepend ss ds rule) (Rule.prepend ss' es full) := by
  apply h.after hds
  apply h.bind hrule
  intro a b hrest
  exact h.pure (View.block_prepend hss hds hrest)

/-- Blocks are related if every way to put rules together keeps the relation. The induction is on
the smaller fuel. -/
theorem block (hle : fuel ≤ more) (close : Keyword) (skipping : Bool) :
    R v.block (Rule.block fuel close skipping) (Rule.block more close skipping) := by
  induction fuel generalizing more close skipping with
  | zero => exact h.spent
  | succ fuel ih =>
    obtain ⟨more, rfl⟩ := Nat.exists_eq_succ_of_ne_zero (Nat.ne_zero_of_lt hle)
    have hle' := Nat.le_of_succ_le_succ hle
    have hany : R v.token Rule.anyToken Rule.anyToken := h.take fun t u htoken => .ok htoken
    apply h.bind hany
    intro t u htoken
    -- The tests on the first token come out the same on both sides, so the branches pair up.
    rw [View.isKeyword_eq htoken, View.isSymbol_eq htoken, View.isCloser_eq htoken,
      v.kind_eq htoken]
    apply Congruence.ite
    · exact h.pure rfl
    apply Congruence.ite
    · exact ih hle' close false
    apply Congruence.ite
    · exact ih hle' close true
    rcases h.statement? (ih hle' .ENDDO false) hle' (fun hrule => hrule) (h.output hle')
      (h.assignment hle') u.kind with ⟨hnone, hnone'⟩ | ⟨rule, other, hrule, hother, hrelated⟩
    · rw [hnone, hnone']
      apply h.bind (h.blame _ htoken)
      intro d e hfault
      exact h.prepend rfl (congrArg (fun seen => [seen]) hfault) (ih hle' close true)
    · rw [hrule, hother]
      apply h.recover hrelated
      · intro a b hread
        obtain ⟨hstatement, hfound⟩ := Prod.ext_iff.1 hread
        exact h.prepend (congrArg (fun s => [s]) hstatement) hfound (ih hle' close false)
      · intro ds es hfound
        exact h.prepend rfl hfound (ih hle' close true)

end Recovering

end Zed
