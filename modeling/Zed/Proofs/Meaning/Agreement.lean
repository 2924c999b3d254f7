import Zed.Proofs.Grammar.WellFormed
import Zed.Proofs.Meaning.Translation

/-!
# Expressions in agreeing states

A program and its script go through the same states, apart from the variable that numbers the passes
of loops. In states that agree so, a term, a condition or a value has the value of its expression:
the alphabet of the program has no variable with the name of the number.
-/

set_option autoImplicit false

namespace Zed

open Python

variable {I : Primitives}

/-! ## States that agree -/

/-- The states are the same but for the number of a pass. -/
structure State.Agree (s t : State I) : Prop where
  store : ∀ x, x ≠ Script.passNumber → s.store x = t.store x
  input : s.input = t.input
  output : s.output = t.output

namespace State

variable {s s' t : State I}

/-- The state with the input and output of another one. -/
def follow (t r : State I) : State I :=
  { t with input := r.input, output := r.output }

/-- A state that agrees with another one has nothing to take over from it. -/
theorem Agree.follow_eq (h : Agree s t) : t.follow s = t := by
  cases t
  simp only [follow, mk.injEq]
  exact ⟨trivial, h.input, h.output⟩

/-- Following a state that only differs in input and output. -/
theorem Agree.follow (h : Agree s t) (hstore : s'.store = s.store) : Agree s' (t.follow s') :=
  ⟨fun x hx => by rw [hstore]; exact h.store x hx, rfl, rfl⟩

/-- Two states still agree after the same assignment. -/
theorem Agree.set (h : Agree s t) (x : String) (v : I.Val) : Agree (s.set x v) (t.set x v) := by
  refine ⟨fun y hy => ?_, h.input, h.output⟩
  by_cases hyx : y = x
  · subst hyx
    rw [store_set_self, store_set_self]
  · rw [store_set_of_ne _ _ hyx, store_set_of_ne _ _ hyx]
    exact h.store y hy

/-- The number of a pass may be anything. -/
theorem Agree.set_passNumber (h : Agree s t) (v : I.Val) : Agree s (t.set Script.passNumber v) := by
  refine ⟨fun y hy => ?_, h.input, h.output⟩
  rw [store_set_of_ne _ _ hy]
  exact h.store y hy

theorem Agree.print (h : Agree s t) (text : String) : Agree (s.print text) (t.print text) :=
  ⟨h.store, h.input, congrArg (· ++ text) h.output⟩

end State

/-! ## Expressions -/

section Expressions

variable {a : Alphabet} {s t : State I}

/-- Both spellings of a number have its value. -/
@[simp] theorem Python.numberExpr_eval (x : Binary64) (t : State I) :
    (numberExpr x).eval t = some (I.number x, t) := by
  unfold numberExpr Primitives.number
  split
  · rfl
  · rfl

theorem Literal.toExpr_eval (label : Literal) (t : State I) :
    label.toExpr.eval t = some (I.literal label, t) := by
  cases label with
  | text body => rfl
  | number x => exact numberExpr_eval x t

variable (ha : ∀ x, a.name x → x ≠ Script.passNumber) (h : s.Agree t)
include ha h

/-- The expression for a term has the value of the term in every state that agrees, and
changes no state. -/
theorem Term.toExpr_eval {e : Term} (he : e.WellFormed a) :
    e.toExpr.eval t = (e.eval I s).map fun v => (v, t) := by
  cases e with
  | var v =>
    rw [Term.toExpr, Expr.eval_name, Term.eval, h.store _ (ha _ he)]
  | text body => rfl
  | number x =>
    rw [Term.toExpr, numberExpr_eval]
    rfl

omit ha h in
/-- Two operands joined, if both are evaluated without changing the state. -/
theorem Relation.toOperator_eval (r : Relation) {left right : Option I.Val} {l e : Expr}
    (hl : l.eval t = left.map fun v => (v, t)) (hr : e.eval t = right.map fun v => (v, t)) :
    (Expr.binary r.toOperator l e).eval t = (r.eval I left right).map fun v => (v, t) := by
  cases left with
  | none =>
    cases r <;> simp [Relation.toOperator, Expr.eval_and, Expr.eval_or, Expr.eval_compare,
      Relation.eval, hl]
  | some v =>
    cases r with
    | and =>
      simp only [Relation.toOperator, Expr.eval_and, hl, Option.map_some, Option.bind_some, hr,
        Relation.eval, Option.bind_eq_bind]
      split <;> rfl
    | or =>
      simp only [Relation.toOperator, Expr.eval_or, hl, Option.map_some, Option.bind_some, hr,
        Relation.eval, Option.bind_eq_bind]
      split <;> rfl
    | _ => cases right <;> simp [Relation.toOperator, Expr.eval_compare, Relation.eval, hl, hr]

/-- The expression for an operand has its value, in every state that agrees. The induction is on the
operand, because conditions are nested. -/
theorem Operand.toExpr_eval {o : Operand} (ho : o.WellFormed a) :
    o.toExpr.eval t = (o.eval I s).map fun v => (v, t) := by
  induction o with
  | term e => exact Term.toExpr_eval ha h ho
  | condition negated r left right ihl ihr =>
    have hbinary := r.toOperator_eval (ihl ho.1) (ihr ho.2)
    cases negated with
    | false =>
      rw [Operand.toExpr, hbinary, Operand.eval]
      simp
    | true =>
      rw [Operand.toExpr, Expr.eval_not, hbinary, Operand.eval]
      simp [Function.comp_def]

/-- The expression for a condition has its value, in every state that agrees. -/
theorem Condition.toExpr_eval {c : Condition} (hc : c.WellFormed a) :
    c.toExpr.eval t = (c.toOperand.eval I s).map fun v => (v, t) :=
  Operand.toExpr_eval ha h hc

/-- What is made of a term for a prompt is the text it is displayed as. -/
theorem Term.toStrCall_eval {e : Term} (he : e.WellFormed a) :
    e.toStrCall.eval t = (e.displayed I s).map fun text => (I.text text, t) := by
  rw [Term.toStrCall, Expr.eval_call, Expr.evalAll_cons, Term.toExpr_eval ha h he, Term.displayed]
  cases e.eval I s with
  | none => rfl
  | some v => simp [invoke]

/-- Strings joined from the left, after what was joined already. -/
theorem Term.foldl_toStrCall_eval {ts : List Term} (hts : ∀ e ∈ ts, e.WellFormed a)
    {joined : Expr} {before : Option String}
    (hjoined : joined.eval t = before.map fun text => (I.text text, t)) :
    (ts.foldl (fun joined e => Expr.binary .add joined e.toStrCall) joined).eval t
      = (before.bind fun text => (Term.joined I s ts).map (text ++ ·)).map
          fun text => (I.text text, t) := by
  induction ts generalizing joined before with
  | nil =>
    rw [List.foldl_nil, hjoined, Term.joined]
    cases before <;> simp
  | cons e ts ih =>
    obtain ⟨he, hts⟩ := List.forall_mem_cons.1 hts
    have hnext : (Expr.binary .add joined e.toStrCall).eval t
        = (before.bind fun text => (e.displayed I s).map (text ++ ·)).map
            fun text => (I.text text, t) := by
      rw [Expr.eval_add, hjoined]
      cases before with
      | none => rfl
      | some text =>
        simp only [Option.map_some, Option.bind_some, Term.toStrCall_eval ha h he]
        cases e.displayed I s <;> simp [I.add_text]
    rw [List.foldl_cons, ih hts hnext, Term.joined]
    cases before with
    | none => rfl
    | some text =>
      cases e.displayed I s with
      | none => rfl
      | some shown => cases Term.joined I s ts <;> simp [String.append_assoc]

/-- The prompt of an input is the texts of its terms, one after the other. -/
theorem Term.promptExpr_eval {ts : List Term} (hts : ∀ e ∈ ts, e.WellFormed a) :
    (Term.promptExpr ts).eval t = (Term.joined I s ts).map fun text => (I.text text, t) := by
  cases ts with
  | nil => rfl
  | cons e ts =>
    obtain ⟨he, hts⟩ := List.forall_mem_cons.1 hts
    rw [Term.promptExpr, Term.foldl_toStrCall_eval ha h hts (Term.toStrCall_eval ha h he),
      Term.joined]
    cases e.displayed I s with
    | none => rfl
    | some shown => cases Term.joined I s ts <;> simp

/-- The expression for a value has its value, and takes from the input what the value takes. -/
theorem Value.toExpr_eval {value : Value} (hvalue : value.WellFormed a) :
    value.toExpr.eval t = (value.eval I s).map fun r => (r.1, t.follow r.2) := by
  cases value with
  | term e =>
    rw [Value.toExpr, Term.toExpr_eval ha h hvalue, Value.eval, Option.map_map]
    simp only [Function.comp_def, h.follow_eq]
  | input prompt =>
    rw [Value.toExpr, Expr.eval_call, Expr.evalAll_cons,
      Term.promptExpr_eval ha h hvalue, Value.eval]
    cases Term.joined I s prompt with
    | none => rfl
    | some text =>
      simp only [Option.map_some, Option.bind_some, Expr.evalAll_nil, invoke, State.ask, h.input,
        Option.map_map, Function.comp_def, State.follow, h.output]

omit ha h in
/-- A value is read without changing the variables. -/
theorem Value.eval_store {value : Value} {v : I.Val} {s' : State I}
    (hvalue : value.eval I s = some (v, s')) : s'.store = s.store := by
  cases value with
  | term e =>
    obtain ⟨_, _, heq⟩ := Option.map_eq_some_iff.1 hvalue
    cases heq
    rfl
  | input prompt =>
    obtain ⟨text, _, hask⟩ := Option.bind_eq_some_iff.1 hvalue
    obtain ⟨_, _, heq⟩ := Option.map_eq_some_iff.1 hask
    cases heq
    rfl

/-- The arguments of a print have the values of their terms. -/
theorem Term.evalAll_toExpr {ts : List Term} (hts : ∀ e ∈ ts, e.WellFormed a) :
    Expr.evalAll (ts.map Term.toExpr) t = (ts.mapM (Term.eval I s)).map fun vs => (vs, t) := by
  induction ts with
  | nil => rfl
  | cons e ts ih =>
    obtain ⟨he, hts⟩ := List.forall_mem_cons.1 hts
    rw [List.map_cons, Expr.evalAll_cons, Term.toExpr_eval ha h he, List.mapM_cons]
    cases e.eval I s with
    | none => rfl
    | some v =>
      simp only [Option.map_some, Option.bind_some, ih hts, Option.bind_eq_bind]
      cases ts.mapM (Term.eval I s) <;> rfl

end Expressions

theorem intercalate_empty_cons (text : String) (texts : List String) :
    "".intercalate (text :: texts) = text ++ "".intercalate texts := by
  apply String.ext
  cases texts <;> simp [String.toList_intercalate, List.intercalate]

/-- Terms are joined by displaying their values and putting nothing between them. -/
theorem Term.joined_eq (s : State I) (ts : List Term) :
    Term.joined I s ts = ((ts.mapM (Term.eval I s)).bind fun vs => vs.mapM I.display).map
      "".intercalate := by
  induction ts with
  | nil => rfl
  | cons e ts ih =>
    rw [Term.joined, ih, Term.displayed, List.mapM_cons]
    cases e.eval I s with
    | none => rfl
    | some v =>
      cases ts.mapM (Term.eval I s) with
      | none => cases hd : I.display v <;> simp [hd]
      | some vs =>
        cases hd : I.display v with
        | none => simp [hd]
        | some shown =>
          cases hds : vs.mapM I.display with
          | none => simp [hd, hds]
          | some texts => simp [hd, hds, intercalate_empty_cons]

end Zed
