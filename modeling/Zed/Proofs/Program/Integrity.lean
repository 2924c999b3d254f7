import Zed.Proofs.Program.Anatomy
import Zed.Proofs.Token.Alphabet

/-!
# Integrity of programs

What can be relied on in every program that was read, with faults or without. It is said of all
leaves and of all statements at any depth, so no place of the tree is left out.

A program is *sound* if its choices are chains that begin with a condition, its numbers are finite
and its loops get on. It is *legible* if its names, strings and numbers are ones that a source
text can spell. Main result: a program that was read is sound, and legible if its tokens are those
of a source text (`Reading.program_sound`).
-/

set_option autoImplicit false

namespace Zed

/-- The shape of the tree: what holds of every statement and every number in it. -/
structure Program.Sound (p : Program) : Prop where
  /-- A choice has a branch. -/
  branches : ∀ branches, Statement.choice branches ∈ p.statements → branches ≠ []
  /-- Its first branch has a condition. -/
  first : ∀ branches, Statement.choice branches ∈ p.statements →
    ∀ b ∈ branches.head?, b.1.isSome = true
  /-- At most the last branch has none. -/
  last : ∀ branches, Statement.choice branches ∈ p.statements →
    ∀ b ∈ branches.dropLast, b.1.isSome = true
  step : ∀ counter start stop step body,
    Statement.forLoop counter start stop step body ∈ p.statements → step.isZero = false
  number : ∀ x, Term.number x ∈ p.leaves → x.isFinite = true

/-- The names, strings and numbers of the program: what a source text can spell. -/
structure Program.Legible (p : Program) : Prop where
  var : ∀ v, Term.var v ∈ p.leaves →
    ∃ c digits, v.name.toList = c :: digits ∧ c.isUpper = true ∧ ∀ d ∈ digits, d.isDigit = true
  text : ∀ body, Term.text body ∈ p.leaves → ∀ c ∈ body.toList, ' ' ≤ c ∧ c ≤ '~' ∧ c ≠ '"'
  /-- No number has a minus sign. -/
  number : ∀ x, Term.number x ∈ p.leaves → ∃ rank, x = .finite false rank
  name_ne_nil : p.name.toList ≠ []
  name_letters : ∀ c ∈ p.name.toList, c.isAlpha = true ∨ c = '_'
  name_ne_keyword : ∀ word : Keyword, p.name ≠ word.spelling
  name_ne_capital : ∀ c, c.isUpper = true → p.name.toList ≠ [c]

/-! ## Parts of well-formed trees -/

section Parts

variable {a : Alphabet}

theorem Literal.toTerm_wellFormed {label : Literal} (h : label.WellFormed a) :
    label.toTerm.WellFormed a := by
  cases label <;> exact h

theorem Value.leaves_wellFormed {v : Value} (h : v.WellFormed a) :
    ∀ x ∈ v.leaves, x.WellFormed a := by
  cases v with
  | term t => exact List.forall_mem_singleton.2 h
  | input prompt => exact h

theorem Operand.leaves_wellFormed {o : Operand} (h : o.WellFormed a) :
    ∀ x ∈ o.leaves, x.WellFormed a := by
  induction o with
  | term t => exact List.forall_mem_singleton.2 h
  | condition negated r left right ihl ihr => exact List.forall_mem_append.2 ⟨ihl h.1, ihr h.2⟩

/-- The leaves of a well-formed condition are well formed. -/
theorem Condition.leaves_wellFormed {c : Condition} (h : c.WellFormed a) :
    ∀ x ∈ c.leaves, x.WellFormed a :=
  List.forall_mem_append.2 ⟨Operand.leaves_wellFormed h.1, Operand.leaves_wellFormed h.2⟩

mutual

/-- The leaves of a well-formed statement are well formed, in its blocks too. -/
theorem Statement.leaves_wellFormed :
    ∀ s : Statement, s.WellFormed a → ∀ x ∈ s.leaves, x.WellFormed a
  | .assign _ _ _, h => by
    obtain ⟨htarget, hvalue⟩ := Statement.wellFormed_assign.1 h
    exact List.forall_mem_cons.2 ⟨htarget, Value.leaves_wellFormed hvalue⟩
  | .output _, h => h
  | .whileLoop _ body, h => by
    obtain ⟨htest, hbody⟩ := Statement.wellFormed_whileLoop.1 h
    exact List.forall_mem_append.2 ⟨Condition.leaves_wellFormed htest,
      Block.leaves_wellFormed body hbody⟩
  | .untilLoop body _, h => by
    obtain ⟨hbody, htest⟩ := Statement.wellFormed_untilLoop.1 h
    exact List.forall_mem_append.2 ⟨Block.leaves_wellFormed body hbody,
      Condition.leaves_wellFormed htest⟩
  | .forLoop _ _ _ _ body, h => by
    obtain ⟨hcounter, hstart, hstop, hstep, _, hbody⟩ := Statement.wellFormed_forLoop.1 h
    refine List.forall_mem_append.2 ⟨?_, Block.leaves_wellFormed body hbody⟩
    simp only [List.forall_mem_cons]
    exact ⟨hcounter, hstart, hstop, hstep, fun _ hx => absurd hx List.not_mem_nil⟩
  | .choice [], h => absurd h Statement.not_wellFormed_choice_nil
  | .choice ((none, _) :: _), h => absurd h Statement.not_wellFormed_choice_none
  | .choice ((some _, body) :: others), h => by
    obtain ⟨htest, hbody, hothers⟩ := Statement.wellFormed_choice.1 h
    exact List.forall_mem_append.2 ⟨List.forall_mem_append.2 ⟨Condition.leaves_wellFormed htest,
      Block.leaves_wellFormed body hbody⟩, Statement.leavesOfBranches_wellFormed others hothers⟩
  | .switch _ arms, h => by
    obtain ⟨hsubject, harms⟩ := Statement.wellFormed_switch.1 h
    exact List.forall_mem_cons.2 ⟨hsubject, Statement.leavesOfArms_wellFormed arms harms⟩

/-- The leaves of well-formed statements are well formed. -/
theorem Statement.leavesOfAll_wellFormed : ∀ ss : List Statement, Statement.allWellFormed a ss →
    ∀ x ∈ Statement.leavesOfAll ss, x.WellFormed a
  | [], _ => fun _ hx => absurd hx List.not_mem_nil
  | s :: ss, h => by
    obtain ⟨hs, hss⟩ := Statement.allWellFormed_cons.1 h
    exact List.forall_mem_append.2 ⟨Statement.leaves_wellFormed s hs,
      Statement.leavesOfAll_wellFormed ss hss⟩

/-- The leaves of a well-formed block are well formed. -/
theorem Block.leaves_wellFormed : ∀ b : Block, b.WellFormed a → ∀ x ∈ b.leaves, x.WellFormed a
  | .mk ss _, h => Statement.leavesOfAll_wellFormed ss (Block.wellFormed_mk.1 h)

/-- The leaves of well-formed branches are well formed. -/
theorem Statement.leavesOfBranches_wellFormed : ∀ branches : List (Option Condition × Block),
    Statement.wellFormedBranches a branches →
      ∀ x ∈ Statement.leavesOfBranches branches, x.WellFormed a
  | [], _ => fun _ hx => absurd hx List.not_mem_nil
  | (some _, body) :: others, h => by
    obtain ⟨htest, hbody, hothers⟩ := Statement.wellFormedBranches_some.1 h
    exact List.forall_mem_append.2 ⟨List.forall_mem_append.2 ⟨Condition.leaves_wellFormed htest,
      Block.leaves_wellFormed body hbody⟩, Statement.leavesOfBranches_wellFormed others hothers⟩
  | (none, body) :: others, h => by
    obtain ⟨hbody, rfl⟩ := Statement.wellFormedBranches_none.1 h
    exact List.forall_mem_append.2 ⟨Block.leaves_wellFormed body hbody,
      fun _ hx => absurd hx List.not_mem_nil⟩
theorem Statement.leavesOfArms_wellFormed : ∀ arms : List (Literal × Block),
    Statement.wellFormedArms a arms → ∀ x ∈ Statement.leavesOfArms arms, x.WellFormed a
  | [], _ => fun _ hx => absurd hx List.not_mem_nil
  | (_, body) :: others, h => by
    obtain ⟨hlabel, hbody, hothers⟩ := Statement.wellFormedArms_cons.1 h
    exact List.forall_mem_append.2 ⟨List.forall_mem_cons.2 ⟨Literal.toTerm_wellFormed hlabel,
      Block.leaves_wellFormed body hbody⟩, Statement.leavesOfArms_wellFormed others hothers⟩
end

mutual

/-- All statements inside a well-formed one are well formed. -/
theorem Statement.inner_wellFormed : ∀ s : Statement, s.WellFormed a → ∀ t ∈ s.inner, t.WellFormed a
  | .assign _ _ _, _ => fun _ ht => absurd ht List.not_mem_nil
  | .output _, _ => fun _ ht => absurd ht List.not_mem_nil
  | .whileLoop _ body, h => Block.inner_wellFormed body (Statement.wellFormed_whileLoop.1 h).2
  | .untilLoop body _, h => Block.inner_wellFormed body (Statement.wellFormed_untilLoop.1 h).1
  | .forLoop _ _ _ _ body, h => by
    obtain ⟨_, _, _, _, _, hbody⟩ := Statement.wellFormed_forLoop.1 h
    exact Block.inner_wellFormed body hbody
  | .choice [], h => absurd h Statement.not_wellFormed_choice_nil
  | .choice ((none, _) :: _), h => absurd h Statement.not_wellFormed_choice_none
  | .choice ((some _, body) :: others), h => by
    obtain ⟨_, hbody, hothers⟩ := Statement.wellFormed_choice.1 h
    exact List.forall_mem_append.2 ⟨Block.inner_wellFormed body hbody,
      Statement.innerOfBranches_wellFormed others hothers⟩
  | .switch _ arms, h => Statement.innerOfArms_wellFormed arms (Statement.wellFormed_switch.1 h).2

/-- All statements inside well-formed ones are well formed. -/
theorem Statement.innerOfAll_wellFormed : ∀ ss : List Statement, Statement.allWellFormed a ss →
    ∀ t ∈ Statement.innerOfAll ss, t.WellFormed a
  | [], _ => fun _ ht => absurd ht List.not_mem_nil
  | s :: ss, h => by
    obtain ⟨hs, hss⟩ := Statement.allWellFormed_cons.1 h
    exact List.forall_mem_append.2 ⟨List.forall_mem_cons.2 ⟨hs, Statement.inner_wellFormed s hs⟩,
      Statement.innerOfAll_wellFormed ss hss⟩

/-- All statements inside a well-formed block are well formed. -/
theorem Block.inner_wellFormed : ∀ b : Block, b.WellFormed a → ∀ t ∈ b.inner, t.WellFormed a
  | .mk ss _, h => Statement.innerOfAll_wellFormed ss (Block.wellFormed_mk.1 h)
theorem Statement.innerOfBranches_wellFormed : ∀ branches : List (Option Condition × Block),
    Statement.wellFormedBranches a branches →
      ∀ t ∈ Statement.innerOfBranches branches, t.WellFormed a
  | [], _ => fun _ ht => absurd ht List.not_mem_nil
  | (some _, body) :: others, h => by
    obtain ⟨_, hbody, hothers⟩ := Statement.wellFormedBranches_some.1 h
    exact List.forall_mem_append.2 ⟨Block.inner_wellFormed body hbody,
      Statement.innerOfBranches_wellFormed others hothers⟩
  | (none, body) :: others, h => by
    obtain ⟨hbody, rfl⟩ := Statement.wellFormedBranches_none.1 h
    exact List.forall_mem_append.2 ⟨Block.inner_wellFormed body hbody,
      fun _ ht => absurd ht List.not_mem_nil⟩
theorem Statement.innerOfArms_wellFormed : ∀ arms : List (Literal × Block),
    Statement.wellFormedArms a arms → ∀ t ∈ Statement.innerOfArms arms, t.WellFormed a
  | [], _ => fun _ ht => absurd ht List.not_mem_nil
  | (_, body) :: others, h => by
    obtain ⟨_, hbody, hothers⟩ := Statement.wellFormedArms_cons.1 h
    exact List.forall_mem_append.2 ⟨Block.inner_wellFormed body hbody,
      Statement.innerOfArms_wellFormed others hothers⟩
end

end Parts

/-! ## Chains of branches -/

/-- Every branch but the last one has a condition. -/
theorem Statement.isSome_of_mem_dropLast {a : Alphabet} :
    ∀ {branches : List (Option Condition × Block)},
    Statement.wellFormedBranches a branches → ∀ b ∈ branches.dropLast, b.1.isSome = true
  | [], _ => fun _ hb => absurd hb List.not_mem_nil
  | (none, _) :: _, h => by
    obtain ⟨_, rfl⟩ := Statement.wellFormedBranches_none.1 h
    exact fun _ hb => absurd hb List.not_mem_nil
  | [(some _, _)], _ => fun _ hb => absurd hb List.not_mem_nil
  | (some _, _) :: other :: others, h => by
    obtain ⟨_, _, hothers⟩ := Statement.wellFormedBranches_some.1 h
    exact List.forall_mem_cons.2 ⟨rfl, Statement.isSome_of_mem_dropLast hothers⟩

/-- The first branch of a well-formed choice is as good as any other one that has a condition. -/
theorem Statement.chain_of_wellFormed {a : Alphabet} {branches : List (Option Condition × Block)}
    (h : (Statement.choice branches).WellFormed a) :
    ∃ test body others, branches = (some test, body) :: others ∧
      Statement.wellFormedBranches a branches := by
  rcases branches with _ | ⟨⟨_ | test, body⟩, others⟩
  · exact absurd h Statement.not_wellFormed_choice_nil
  · exact absurd h Statement.not_wellFormed_choice_none
  · exact ⟨test, body, others, rfl,
      Statement.wellFormedBranches_some.2 (Statement.wellFormed_choice.1 h)⟩

/-- A well-formed program is sound, if its alphabet has finite numbers only. -/
theorem Program.WellFormed.sound {a : Alphabet} {p : Program} (h : p.WellFormed a)
    (hfinite : ∀ x, a.value x → x.isFinite = true) : p.Sound where
  branches branches hmem := by
    obtain ⟨_, _, _, rfl, _⟩ :=
      Statement.chain_of_wellFormed (Block.inner_wellFormed p.body h.body _ hmem)
    exact List.cons_ne_nil _ _
  first branches hmem := by
    obtain ⟨_, _, _, rfl, _⟩ :=
      Statement.chain_of_wellFormed (Block.inner_wellFormed p.body h.body _ hmem)
    rintro _ ⟨⟩
    rfl
  last branches hmem := by
    obtain ⟨_, _, _, _, hchain⟩ :=
      Statement.chain_of_wellFormed (Block.inner_wellFormed p.body h.body _ hmem)
    exact Statement.isSome_of_mem_dropLast hchain
  step _ _ _ _ _ hmem := by
    have hloop := Block.inner_wellFormed p.body h.body _ hmem
    obtain ⟨_, _, _, _, hzero, _⟩ := Statement.wellFormed_forLoop.1 hloop
    exact hzero
  number x hmem := hfinite x (Block.leaves_wellFormed p.body h.body _ hmem)

/-- A well-formed program over the alphabet of source texts is legible. -/
theorem Program.WellFormed.legible {p : Program} (h : p.WellFormed .source) : p.Legible where
  var v hmem := Variable.isName_iff.1 (Block.leaves_wellFormed p.body h.body _ hmem)
  text body hmem c hc := by
    have hbody : body.toList.all Lexeme.isBodyChar = true :=
      Block.leaves_wellFormed p.body h.body _ hmem
    have hchar := List.all_eq_true.1 hbody c hc
    simp only [Lexeme.isBodyChar, Bool.and_eq_true, decide_eq_true_eq] at hchar
    exact ⟨hchar.1.1, hchar.1.2, hchar.2⟩
  number x hmem := Block.leaves_wellFormed p.body h.body _ hmem
  name_ne_nil := h.name.1
  name_letters c hc := by
    have hchar := List.all_eq_true.1 h.name.2.1 c hc
    simpa only [Lexeme.isIdentChar, Bool.or_eq_true, decide_eq_true_eq] using hchar
  name_ne_keyword word heq := by
    have hkeyword := h.name.2.2.1
    rw [heq] at hkeyword
    cases word <;> exact absurd hkeyword (by decide)
  name_ne_capital c hc heq := by
    have hname : Variable.isName p.name = true :=
      Variable.isName_iff.2 ⟨c, [], heq, hc, fun _ hd => absurd hd List.not_mem_nil⟩
    rw [h.name.2.2.2] at hname
    cases hname

/-! ## Programs that were read -/

/-- Numbers are finite, and nothing is asked of names and strings. -/
def Alphabet.finite : Alphabet where
  name _ := True
  body _ := True
  value x := x.isFinite = true
  ident _ := True

/-- A numeral spells a finite number, if it spells one at all. -/
theorem Binary64.isFinite_of_ofSpelling? {spelling : String} {x : Binary64}
    (h : Binary64.ofSpelling? spelling = some x) : x.isFinite = true := by
  unfold Binary64.ofSpelling? at h
  obtain ⟨d, _, h⟩ := Option.bind_eq_some_iff.1 h
  split at h
  · next hfinite =>
    cases h
    exact hfinite
  · cases h

/-- Every token is admitted, because the grammar refuses numerals of infinite numbers. -/
theorem Alphabet.finite_admits (kind : Token.Kind) : Alphabet.finite.Admits kind := by
  cases kind with
  | number spelling => exact fun _ => Binary64.isFinite_of_ofSpelling?
  | _ => trivial

/-- A program that was read is sound, whatever its tokens are and whatever recovery has left out. If
the tokens are those of a source text it is legible as well. -/
theorem Reading.program_sound {ts : List Token} {p : Program} (h : (ofTokens ts).program = some p) :
    p.Sound ∧ ∀ source, ts = Token.ofSource source → p.Legible := by
  have hfinite := wellFormed_of_program_eq_some (fun t _ => Alphabet.finite_admits t.kind) h
  refine ⟨hfinite.sound fun _ hx => hx, ?_⟩
  rintro source rfl
  exact (Program.wellFormed_source h).legible

/-- A chain of three branches in a loop with fractions. In each branch a statement fails: in a list
of terms, at a step of zero and at a condition. -/
def salvagedSource : String :=
  String.join ["PROG salvage FOR X ", "FROM 0.5 TO 2 BY 0.5 ", "DO IF > X 1 DO ",
    "OUT[X \"~\"]: ENDDO ", "OTHERWISE IF ", "== X \"\\\" DO ", "FOR Y FROM 1 TO 2 ",
    "BY 0 DO : ENDDO ", "OTHERWISE DO ", "= X1 \"!\": IF X: ", "ENDDO ENDIF ENDDO ",
    "ENDFOR ENDPROG"]

theorem salvagedSource_sound :
    ∃ p, (Reading.ofTokens (Token.ofSource salvagedSource)).program = some p ∧
      (Reading.ofTokens (Token.ofSource salvagedSource)).diagnostics.length = 3 ∧
      p.statements.length = 3 ∧ p.leaves.length = 10 ∧ p.Sound ∧ p.Legible := by
  have hread : (Reading.ofTokens (Token.ofSource salvagedSource)).diagnostics.length = 3 ∧
      (Reading.ofTokens (Token.ofSource salvagedSource)).program.map
        (fun p => (p.statements.length, p.leaves.length)) = some (3, 10) := by
    rw [salvagedSource, Token.ofSource_join]
    decide +kernel
  obtain ⟨p, hp, hcounts⟩ := Option.map_eq_some_iff.1 hread.2
  obtain ⟨hsound, hlegible⟩ := Reading.program_sound hp
  exact ⟨p, hp, hread.1, congrArg Prod.fst hcounts, congrArg Prod.snd hcounts, hsound,
    hlegible _ rfl⟩

end Zed
