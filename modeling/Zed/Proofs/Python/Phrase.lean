import Zed.Proofs.Python.Reader

/-!
# Phrases

The grammar of expressions as a relation: which token lists are expressions of which level. Its
main result, `Phrase.exprTo_eq`, is that the reader finds the expression of every phrase, and
stops at its end.

The reader goes on as long as it can. So a phrase is read together with what follows it, and
`Stops level rest` says that `rest` does not carry a phrase of the level on: neither by an operator
of this level or a tighter one, nor by a bracket, which would turn a name into a call.
-/

set_option autoImplicit false

namespace Zed.Python

/-- What a list of tokens can be. -/
inductive Form where
  | expr (level : Nat) (e : Expr)
  /-- The arguments of a call, with the closing bracket. -/
  | arguments (es : List Expr)

/-- The tokens have the form. -/
inductive Phrase : Form → List Tok → Prop
  | int (n : Nat) : Phrase (.expr 0 (.int n)) [.int n]
  | float (x : Binary64) : Phrase (.expr 0 (.float x)) [.float x]
  | text (body : String) : Phrase (.expr 0 (.text body)) [.text body]
  | name {x : String} (hx : Script.reservedWords.contains x = false) :
      Phrase (.expr 0 (.name x)) [.name x]
  | true : Phrase (.expr 0 (.constant Bool.true)) [.name "True"]
  | call {function : String} {es : List Expr} {ts : List Tok}
      (hfunction : Script.reservedWords.contains function = false)
      (harguments : Phrase (.arguments es) ts) :
      Phrase (.expr 0 (.call function es)) (.name function :: .sign .open :: ts)
  | bracket {e : Expr} {ts : List Tok} (hinner : Phrase (.expr 6 e) ts) :
      Phrase (.expr 0 e) (.sign .open :: (ts ++ [.sign .close]))
  | tighter {level : Nat} {e : Expr} {ts : List Tok} (h : Phrase (.expr level e) ts) :
      Phrase (.expr (level + 1) e) ts
  | compare {t : Tok} {c : Comparison} {l r : Expr} {ls rs : List Tok}
      (ht : t.operator? = some (.compare c)) (hleft : Phrase (.expr 2 l) ls)
      (hright : Phrase (.expr 2 r) rs) :
      Phrase (.expr 3 (.binary (.compare c) l r)) (ls ++ t :: rs)
  | not {e : Expr} {ts : List Tok} (h : Phrase (.expr 4 e) ts) :
      Phrase (.expr 4 (.not e)) (.name "not" :: ts)
  /-- The other operators are joined from the left. -/
  | joined {t : Tok} {operator : Operator} {level : Nat} {l r : Expr} {ls rs : List Tok}
      (ht : t.operator? = some operator) (hlevel : operator.level = level + 1) (hchain : level ≠ 2)
      (hleft : Phrase (.expr (level + 1) l) ls) (hright : Phrase (.expr level r) rs) :
      Phrase (.expr (level + 1) (.binary operator l r)) (ls ++ t :: rs)
  | last {e : Expr} {ts : List Tok} (h : Phrase (.expr 6 e) ts) :
      Phrase (.arguments [e]) (ts ++ [.sign .close])
  | more {e : Expr} {es : List Expr} {ts us : List Tok} (h : Phrase (.expr 6 e) ts)
      (hothers : Phrase (.arguments es) us) :
      Phrase (.arguments (e :: es)) (ts ++ .sign .comma :: us)

/-- A phrase of a level is one of every looser level. -/
theorem Phrase.loosen {level : Nat} {e : Expr} {ts : List Tok} (h : Phrase (.expr level e) ts)
    (more : Nat) : Phrase (.expr (level + more) e) ts := by
  induction more with
  | zero => exact h
  | succ more ih => exact ih.tighter

/-- Two single operands around an operator. -/
theorem Phrase.binary {t : Tok} {operator : Operator} {l r : Expr} {ls rs : List Tok}
    (ht : t.operator? = some operator) (hleft : Phrase (.expr 0 l) ls)
    (hright : Phrase (.expr 0 r) rs) :
    Phrase (.expr 6 (.binary operator l r)) (ls ++ t :: rs) := by
  cases operator with
  | or => exact .joined ht rfl (by omega) (hleft.loosen 6) (hright.loosen 5)
  | and => exact (Phrase.joined ht rfl (by omega) (hleft.loosen 5) (hright.loosen 4)).loosen 1
  | compare c => exact (Phrase.compare ht (hleft.loosen 2) (hright.loosen 2)).loosen 3
  | add => exact (Phrase.joined ht rfl (by omega) (hleft.loosen 2) (hright.loosen 1)).loosen 4
  | mul => exact (Phrase.joined ht rfl (by omega) (hleft.loosen 1) hright).loosen 5

/-! ## What can follow a phrase -/

/-- The token carries on a phrase of the level. -/
def Tok.Continues (level : Nat) (t : Tok) : Prop :=
  t = .sign .open ∨ ∃ operator, t.operator? = some operator ∧ operator.level ≤ level

/-- What follows does not carry on a phrase of the level. -/
def Stops (level : Nat) (rest : List Tok) : Prop :=
  ∀ t ∈ rest.head?, ¬ t.Continues level

theorem Stops.nil (level : Nat) : Stops level [] := by
  rintro t ⟨⟩

/-- A token that is neither an operator nor an opening bracket stops every level. -/
theorem Stops.cons {t : Tok} (level : Nat) (rest : List Tok) (hopen : t ≠ .sign .open)
    (ht : t.operator? = none) : Stops level (t :: rest) := by
  rintro t ⟨⟩ (h | ⟨operator, hoperator, _⟩)
  · exact hopen h
  · rw [ht] at hoperator
    cases hoperator

/-- What stops a level stops every tighter one. -/
theorem Stops.mono {low high : Nat} {rest : List Tok} (hle : low ≤ high) (h : Stops high rest) :
    Stops low rest := by
  rintro t ht (hopen | ⟨operator, hoperator, hlevel⟩)
  · exact h t ht (.inl hopen)
  · exact h t ht (.inr ⟨operator, hoperator, hlevel.trans hle⟩)

/-- An operator stops the levels below its own. -/
theorem Stops.operator {t : Tok} {operator : Operator} {level : Nat} (rest : List Tok)
    (ht : t.operator? = some operator) (hlevel : level < operator.level) :
    Stops level (t :: rest) := by
  rintro t ⟨⟩ (rfl | ⟨other, hother, hle⟩)
  · cases ht
  · rw [ht] at hother
    cases hother
    omega

theorem operatorAt_cons {t : Tok} {operator : Operator} {level : Nat} (rest : List Tok)
    (ht : t.operator? = some operator) (hlevel : operator.level = level) :
    operatorAt level (t :: rest) = some (operator, rest) := by
  simp [operatorAt, ht, hlevel, Option.filter]

/-- There is no operator of a level where the level stops. -/
theorem Stops.operatorAt_eq_none {level : Nat} {rest : List Tok} (h : Stops level rest) :
    operatorAt level rest = none := by
  cases rest with
  | nil => rfl
  | cons t rest =>
    simp only [operatorAt, Option.map_eq_none_iff, Option.filter_eq_none_iff, decide_eq_true_eq]
    intro operator hoperator hlevel
    exact h t rfl (.inr ⟨operator, hoperator, Nat.le_of_eq hlevel⟩)

/-! ## Reading a phrase -/

/-- The reader of the level finds the expression, and stops where the level stops. -/
def Reads (level : Nat) (e : Expr) (ts : List Tok) : Prop :=
  ∀ fuel rest, (ts ++ rest).length ≤ fuel → Stops level rest →
    upTo (operand (expr fuel)) level (ts ++ rest) = some (e, rest)

/-- Reading a chain of the level above finds the expression and goes on with it as
the left operand. -/
def GoesOn (level : Nat) (e : Expr) (ts : List Tok) : Prop :=
  ∀ fuel rest, (ts ++ rest).length ≤ fuel → Stops level rest →
    ∃ more, rest.length ≤ more ∧
      upTo (operand (expr fuel)) (level + 1) (ts ++ rest)
        = chainFrom (level + 1) (upTo (operand (expr fuel)) level) more e rest

/-- The level above is one of chains. -/
def Chains (level : Nat) : Prop :=
  level ≠ 2 ∧ level ≠ 3

theorem Chains.upTo_succ {level : Nat} (h : Chains level) (operand : Reader Expr) :
    upTo operand (level + 1) = chain (level + 1) (upTo operand level) := by
  simp [upTo, above, h.1, h.2]

/-- A chain begins with an expression of the level below. -/
theorem Reads.goesOn {level : Nat} {e : Expr} {ts : List Tok} (h : Reads level e ts)
    (hlevel : Chains level) : GoesOn level e ts := by
  intro fuel rest hfuel hrest
  refine ⟨(ts ++ rest).length, by simp, ?_⟩
  rw [hlevel.upTo_succ, chain, h fuel rest hfuel hrest]
  rfl

/-- One more operand of a chain. -/
theorem GoesOn.joined {level : Nat} {operator : Operator} {t : Tok} {l r : Expr} {ls rs : List Tok}
    (hl : GoesOn level l ls) (hr : Reads level r rs) (ht : t.operator? = some operator)
    (hlevel : operator.level = level + 1) :
    GoesOn level (.binary operator l r) (ls ++ t :: rs) := by
  intro fuel rest hfuel hrest
  rw [List.append_assoc, List.cons_append] at hfuel ⊢
  obtain ⟨more, hmore, hread⟩ :=
    hl fuel (t :: (rs ++ rest)) hfuel (.operator _ ht (by omega))
  -- The fuel left pays for the operator.
  rw [List.length_cons] at hmore
  obtain ⟨more, rfl⟩ : ∃ k, more = k + 1 := ⟨more - 1, by omega⟩
  have hright : upTo (operand (expr fuel)) level (rs ++ rest) = some (r, rest) := by
    refine hr fuel rest ?_ hrest
    rw [List.length_append, List.length_cons] at hfuel
    omega
  refine ⟨more, ?_, ?_⟩
  · rw [List.length_append] at hmore
    omega
  · rw [hread, chainFrom, operatorAt_cons _ ht hlevel]
    simp only [hright, Option.bind_some]

/-- A chain is over where its level stops. -/
theorem GoesOn.reads {level : Nat} {e : Expr} {ts : List Tok} (h : GoesOn level e ts) :
    Reads (level + 1) e ts := by
  intro fuel rest hfuel hrest
  obtain ⟨more, _, hread⟩ := h fuel rest hfuel (hrest.mono (Nat.le_succ level))
  rw [hread]
  cases more with
  | zero => rfl
  | succ more => rw [chainFrom, hrest.operatorAt_eq_none]

/-- A sum that is not compared. -/
theorem Reads.uncompared {e : Expr} {ts : List Tok} (h : Reads 2 e ts) : Reads 3 e ts := by
  intro fuel rest hfuel hrest
  show comparison (upTo (operand (expr fuel)) 2) (ts ++ rest) = _
  rw [comparison, h fuel rest hfuel (hrest.mono (by omega))]
  simp only [Option.bind_some, hrest.operatorAt_eq_none]

/-- Two sums that are compared. -/
theorem Reads.compared {t : Tok} {c : Comparison} {l r : Expr} {ls rs : List Tok}
    (hl : Reads 2 l ls) (hr : Reads 2 r rs) (ht : t.operator? = some (.compare c)) :
    Reads 3 (.binary (.compare c) l r) (ls ++ t :: rs) := by
  intro fuel rest hfuel hrest
  rw [List.append_assoc, List.cons_append] at hfuel ⊢
  have hright : upTo (operand (expr fuel)) 2 (rs ++ rest) = some (r, rest) := by
    refine hr fuel rest ?_ (hrest.mono (by omega))
    rw [List.length_append, List.length_cons] at hfuel
    omega
  show comparison (upTo (operand (expr fuel)) 2) (ls ++ t :: (rs ++ rest)) = _
  rw [comparison, hl fuel _ hfuel (.operator _ ht (Nat.lt_succ_self 2))]
  simp only [Option.bind_some, operatorAt_cons _ ht (show Operator.level (.compare c) = 3 from rfl),
    hright, Option.map_some]

theorem inversion_of_ne_not {t : Tok} (tighter : Reader Expr) (fuel : Nat) (ts : List Tok)
    (ht : t ≠ .name "not") : inversion tighter fuel (t :: ts) = tighter (t :: ts) := by
  unfold inversion
  split
  · next h => exact absurd (List.cons.inj h).1 ht
  · rfl

/-- A comparison that is not negated. -/
theorem Reads.unnegated {t : Tok} {e : Expr} {ts : List Tok} (h : Reads 3 e (t :: ts))
    (ht : t ≠ .name "not") : Reads 4 e (t :: ts) := by
  intro fuel rest hfuel hrest
  show inversion (upTo (operand (expr fuel)) 3) _ (t :: (ts ++ rest)) = _
  rw [inversion_of_ne_not _ _ _ ht]
  exact h fuel rest hfuel (hrest.mono (by omega))

/-- A negation. -/
theorem Reads.negated {e : Expr} {ts : List Tok} (h : Reads 4 e ts) :
    Reads 4 (.not e) (.name "not" :: ts) := by
  intro fuel rest hfuel hrest
  have hinner : inversion (upTo (operand (expr fuel)) 3) (ts ++ rest).length (ts ++ rest)
      = some (e, rest) := h fuel rest (Nat.le_of_succ_le hfuel) hrest
  show inversion (upTo (operand (expr fuel)) 3) ((ts ++ rest).length + 1)
    (.name "not" :: (ts ++ rest)) = _
  rw [inversion, hinner]
  rfl

/-! ### Single operands -/

theorem ne_of_unreserved {x word : String} (hx : Script.reservedWords.contains x = false)
    (hword : Script.reservedWords.contains word = true) : x ≠ word := by
  rintro rfl
  rw [hx] at hword
  cases hword

theorem operand_name {x : String} (expr : Reader Expr) (ts : List Tok)
    (hx : Script.reservedWords.contains x = false) :
    operand expr (.name x :: ts) = named expr x ts := by
  rw [operand, if_neg (ne_of_unreserved hx (by decide)),
    if_neg (ne_of_unreserved hx (by decide)), hx, if_neg Bool.false_ne_true]

/-- A name is a variable, unless a bracket follows. -/
theorem Reads.name {x : String} (hx : Script.reservedWords.contains x = false) :
    Reads 0 (.name x) [.name x] := by
  intro fuel rest _ hrest
  show operand (expr fuel) (.name x :: rest) = _
  rw [operand_name _ _ hx]
  unfold named
  split
  · exact absurd (.inl rfl) (hrest _ rfl)
  · rfl

/-- An expression is read where a whole one is expected. -/
theorem Reads.expr_eq {e : Expr} {ts rest : List Tok} {fuel : Nat} (h : Reads 6 e ts)
    (hfuel : (ts ++ rest).length < fuel) (hrest : Stops 6 rest) :
    expr fuel (ts ++ rest) = some (e, rest) := by
  obtain ⟨fuel, rfl⟩ : ∃ k, fuel = k + 1 := ⟨fuel - 1, by omega⟩
  exact h fuel rest (by omega) hrest

theorem Reads.bracket {e : Expr} {ts : List Tok} (h : Reads 6 e ts) :
    Reads 0 e (.sign .open :: (ts ++ [.sign .close])) := by
  intro fuel rest hfuel _
  rw [List.cons_append, List.append_assoc, List.singleton_append] at hfuel ⊢
  have hinner : expr fuel (ts ++ .sign .close :: rest) = some (e, .sign .close :: rest) :=
    h.expr_eq hfuel (.cons 6 rest (by decide) rfl)
  show operand (expr fuel) (.sign .open :: (ts ++ .sign .close :: rest)) = _
  rw [operand, hinner]

/-! ### Calls -/

/-- The reader of arguments finds the expressions. -/
def ReadsArguments (es : List Expr) (ts : List Tok) : Prop :=
  ∀ fuel more rest, (ts ++ rest).length < fuel → (ts ++ rest).length ≤ more →
    arguments (expr fuel) more (ts ++ rest) = some (es, rest)

theorem ReadsArguments.last {e : Expr} {ts : List Tok} (h : Reads 6 e ts) :
    ReadsArguments [e] (ts ++ [.sign .close]) := by
  intro fuel more rest hfuel hmore
  rw [List.append_assoc, List.singleton_append] at hfuel hmore ⊢
  have hlast : expr fuel (ts ++ .sign .close :: rest) = some (e, .sign .close :: rest) :=
    h.expr_eq hfuel (.cons 6 rest (by decide) rfl)
  rw [List.length_append, List.length_cons] at hmore
  obtain ⟨more, rfl⟩ : ∃ k, more = k + 1 := ⟨more - 1, by omega⟩
  rw [arguments, hlast]

theorem ReadsArguments.more {e : Expr} {es : List Expr} {ts us : List Tok} (h : Reads 6 e ts)
    (hothers : ReadsArguments es us) : ReadsArguments (e :: es) (ts ++ .sign .comma :: us) := by
  intro fuel more rest hfuel hmore
  rw [List.append_assoc, List.cons_append] at hfuel hmore ⊢
  have hfirst : expr fuel (ts ++ .sign .comma :: (us ++ rest))
      = some (e, .sign .comma :: (us ++ rest)) :=
    h.expr_eq hfuel (.cons 6 _ (by decide) rfl)
  have hlength : (ts ++ .sign .comma :: (us ++ rest)).length
      = ts.length + ((us ++ rest).length + 1) := by
    rw [List.length_append, List.length_cons]
  rw [hlength] at hfuel hmore
  obtain ⟨more, rfl⟩ : ∃ k, more = k + 1 := ⟨more - 1, by omega⟩
  rw [arguments, hfirst]
  simp only [hothers fuel more rest (by omega) (by omega), Option.map_some]

theorem Reads.call {function : String} {es : List Expr} {ts : List Tok}
    (hfunction : Script.reservedWords.contains function = false) (h : ReadsArguments es ts) :
    Reads 0 (.call function es) (.name function :: .sign .open :: ts) := by
  intro fuel rest hfuel _
  rw [List.cons_append, List.cons_append, List.length_cons, List.length_cons] at hfuel
  show operand (expr fuel) (.name function :: .sign .open :: (ts ++ rest)) = _
  rw [operand_name _ _ hfunction, named, h fuel _ rest (by omega) (Nat.le_refl _)]
  rfl

/-! ## The reader finds every phrase -/

/-- The first token of the form, if it is tighter than a negation, is not a `not`. -/
def Form.Leads : Form → List Tok → Prop
  | .expr level _, ts => level ≤ 3 → ∃ t us, ts = t :: us ∧ t ≠ .name "not"
  | .arguments _, _ => True

theorem Phrase.leads {form : Form} {ts : List Tok} (h : Phrase form ts) : form.Leads ts := by
  induction h with
  | int | float | text | true => exact fun _ => ⟨_, _, rfl, by simp⟩
  | name hx =>
    refine fun _ => ⟨_, _, rfl, ?_⟩
    rintro ⟨⟩
    cases hx
  | call hfunction =>
    refine fun _ => ⟨_, _, rfl, ?_⟩
    rintro ⟨⟩
    cases hfunction
  | bracket => exact fun _ => ⟨_, _, rfl, by decide⟩
  | tighter _ ih => exact fun hlevel => ih (by omega)
  | compare _ _ _ ih =>
    obtain ⟨t, us, rfl, ht⟩ := ih (by omega)
    exact fun _ => ⟨t, _, rfl, ht⟩
  | not => exact fun hlevel => absurd hlevel (by omega)
  | joined _ _ _ _ _ ih =>
    intro hlevel
    obtain ⟨t, us, rfl, ht⟩ := ih hlevel
    exact ⟨t, _, rfl, ht⟩
  | last | more => exact trivial

/-- What is read at a level is read at the next looser one. -/
theorem Reads.tighter {level : Nat} {e : Expr} {ts : List Tok} (h : Reads level e ts)
    (hleads : (Form.expr level e).Leads ts) : Reads (level + 1) e ts := by
  by_cases hcompare : level = 2
  · subst hcompare
    exact h.uncompared
  · by_cases hnot : level = 3
    · subst hnot
      obtain ⟨t, us, rfl, ht⟩ := hleads (Nat.le_refl 3)
      exact h.unnegated ht
    · exact (h.goesOn ⟨hcompare, hnot⟩).reads

/-- The reader finds what the form says. -/
def Form.Found : Form → List Tok → Prop
  | .expr level e, ts => Reads level e ts ∧
      ∀ below, level = below + 1 → Chains below → GoesOn below e ts
  | .arguments es, ts => ReadsArguments es ts

/-- The levels of the operators that are joined are levels of chains. -/
theorem Operator.chains {operator : Operator} {level : Nat} (hlevel : operator.level = level + 1)
    (hne : level ≠ 2) : Chains level := by
  refine ⟨hne, ?_⟩
  rintro rfl
  cases operator <;> cases hlevel

theorem Phrase.found {form : Form} {ts : List Tok} (h : Phrase form ts) : form.Found ts := by
  induction h with
  | int | float | text | true =>
    exact ⟨fun _ _ _ _ => rfl, fun _ h => absurd h (by omega)⟩
  | name hx => exact ⟨.name hx, fun _ h => absurd h (by omega)⟩
  | call hfunction _ ih => exact ⟨.call hfunction ih, fun _ h => absurd h (by omega)⟩
  | bracket _ ih => exact ⟨ih.1.bracket, fun _ h => absurd h (by omega)⟩
  | tighter hphrase ih =>
    refine ⟨ih.1.tighter hphrase.leads, ?_⟩
    rintro below ⟨⟩ hchains
    exact ih.1.goesOn hchains
  | compare ht _ _ ihl ihr =>
    refine ⟨ihl.1.compared ihr.1 ht, ?_⟩
    rintro below hbelow ⟨hne, _⟩
    omega
  | not _ ih =>
    refine ⟨ih.1.negated, ?_⟩
    rintro below hbelow ⟨_, hne⟩
    omega
  | joined ht hlevel hchain _ _ ihl ihr =>
    have hgoes := (ihl.2 _ rfl (Operator.chains hlevel hchain)).joined ihr.1 ht hlevel
    refine ⟨hgoes.reads, ?_⟩
    rintro below ⟨⟩ _
    exact hgoes
  | last _ ih => exact .last ih.1
  | more _ _ ihe ihes => exact .more ihe.1 ihes

/-- A whole expression is read up to the end of its line. -/
theorem Phrase.exprTo_eq {e : Expr} {ts : List Tok} (last : List Tok) (h : Phrase (.expr 6 e) ts)
    (hlast : Stops 6 last) : exprTo last (ts ++ last) = some e := by
  rw [exprTo, h.found.1.expr_eq (Nat.lt_succ_self _) hlast]
  exact if_pos rfl

end Zed.Python
