import Zed.Proofs.Meaning.Primitives

/-!
# Execution of scripts

The part of Python that scripts are written in, as syntax trees, and what it does. The functions
and operators mean what an interpretation of the primitive operations says; everything else
follows the rules of Python:

* arguments and operands are evaluated from left to right; `and` and `or` give the value of
  the operand that decides;
* names are variables, and reading one that has no value fails;
* a loop over a range goes through the values that the range has when the loop is entered, and
  assigns each to the target at the beginning of a pass;
* `break` leaves the innermost loop around it. A suite that is left so tells this to the
  loop by its `Exit`.
-/

set_option autoImplicit false

namespace Zed.Python

/-- An operator between two operands. -/
inductive Operator where
  | or
  | and
  | compare (comparison : Comparison)
  | add
  | mul
  deriving DecidableEq, Repr

/-- An expression. -/
inductive Expr where
  | name (x : String)
  | int (n : Nat)
  | float (x : Binary64)
  | text (body : String)
  | constant (b : Bool)
  | not (operand : Expr)
  | binary (operator : Operator) (left right : Expr)
  | call (function : String) (arguments : List Expr)

/-- A statement. An `elif` is an `if` in the `else` part before it. -/
inductive Stmt where
  | assign (target : String) (value : Expr)
  /-- Prints values with a text between each two. -/
  | print (arguments : List Expr) (separator : String)
  | pass
  | leave
  | ifElse (test : Expr) (body orelse : List Stmt)
  | whileLoop (test : Expr) (body : List Stmt)
  /-- Loops over a range. -/
  | forRange (target : String) (arguments : List Expr) (body : List Stmt)

/-! ## Expressions -/

variable {I : Primitives}

/-- Calls one of the functions that scripts use. -/
def invoke (function : String) (arguments : List I.Val) (s : State I) : Option (I.Val × State I) :=
  match function, arguments with
  | "str", [v] => (I.display v).map fun text => (I.text text, s)
  | "round", [v, places] => (I.round v places).map fun w => (w, s)
  | "zedAssign", [old, v, operator] => (I.update old v operator).map fun w => (w, s)
  | "zedInput", [prompt] => s.ask prompt
  | _, _ => none

mutual
/-- The value of an expression and the state after it. -/
def Expr.eval : Expr → State I → Option (I.Val × State I)
  | .name x, s => (s.store x).map fun v => (v, s)
  | .int n, s => some (I.whole n, s)
  | .float x, s => some (I.fraction x, s)
  | .text body, s => some (I.text body, s)
  | .constant b, s => some (I.truth b, s)
  | .not e, s => (e.eval s).map fun r => (I.truth (!I.holds r.1), r.2)
  | .binary .or left right, s =>
    (left.eval s).bind fun r => if I.holds r.1 then some r else right.eval r.2
  | .binary .and left right, s =>
    (left.eval s).bind fun r => if I.holds r.1 then right.eval r.2 else some r
  | .binary (.compare c) left right, s =>
    (left.eval s).bind fun l => (right.eval l.2).bind fun r =>
      (I.compare c l.1 r.1).map fun v => (v, r.2)
  | .binary .add left right, s =>
    (left.eval s).bind fun l => (right.eval l.2).bind fun r => (I.add l.1 r.1).map fun v => (v, r.2)
  | .binary .mul left right, s =>
    (left.eval s).bind fun l => (right.eval l.2).bind fun r => (I.mul l.1 r.1).map fun v => (v, r.2)
  | .call function arguments, s =>
    (Expr.evalAll arguments s).bind fun r => invoke function r.1 r.2
/-- The values of expressions, evaluated in order. -/
def Expr.evalAll : List Expr → State I → Option (List I.Val × State I)
  | [], s => some ([], s)
  | e :: es, s => (e.eval s).bind fun r => (Expr.evalAll es r.2).map fun rs => (r.1 :: rs.1, rs.2)
end

section Equations

variable (s : State I)

/-- A name has the value that was assigned to it last, and no value before that. -/
@[simp] theorem Expr.eval_name (x : String) :
    (Expr.name x).eval s = (s.store x).map fun v => (v, s) := rfl

@[simp] theorem Expr.eval_int (n : Nat) : (Expr.int n).eval s = some (I.whole n, s) := rfl

@[simp] theorem Expr.eval_float (x : Binary64) :
    (Expr.float x).eval s = some (I.fraction x, s) := rfl

@[simp] theorem Expr.eval_text (body : String) :
    (Expr.text body).eval s = some (I.text body, s) := rfl

@[simp] theorem Expr.eval_constant (b : Bool) :
    (Expr.constant b).eval s = some (I.truth b, s) := rfl

/-- A negation is a truth value, whatever its operand is. -/
theorem Expr.eval_not (e : Expr) :
    (Expr.not e).eval s = (e.eval s).map fun r => (I.truth (!I.holds r.1), r.2) := rfl

/-- A disjunction has the value of the first operand that holds, and does not
evaluate the others. -/
theorem Expr.eval_or (left right : Expr) : (Expr.binary .or left right).eval s
    = (left.eval s).bind fun r => if I.holds r.1 then some r else right.eval r.2 := rfl

/-- A conjunction has the value of the first operand that fails, and does not
evaluate the others. -/
theorem Expr.eval_and (left right : Expr) : (Expr.binary .and left right).eval s
    = (left.eval s).bind fun r => if I.holds r.1 then right.eval r.2 else some r := rfl

/-- Both operands of a comparison are evaluated, the left one first. -/
theorem Expr.eval_compare (c : Comparison) (left right : Expr) :
    (Expr.binary (.compare c) left right).eval s = (left.eval s).bind fun l =>
      (right.eval l.2).bind fun r => (I.compare c l.1 r.1).map fun v => (v, r.2) := rfl

/-- Both operands of a sum are evaluated, the left one first. -/
theorem Expr.eval_add (left right : Expr) : (Expr.binary .add left right).eval s
    = (left.eval s).bind fun l => (right.eval l.2).bind fun r =>
        (I.add l.1 r.1).map fun v => (v, r.2) := rfl

theorem Expr.eval_mul (left right : Expr) : (Expr.binary .mul left right).eval s
    = (left.eval s).bind fun l => (right.eval l.2).bind fun r =>
        (I.mul l.1 r.1).map fun v => (v, r.2) := rfl

/-- The arguments of a call are evaluated first, from left to right. -/
theorem Expr.eval_call (function : String) (arguments : List Expr) :
    (Expr.call function arguments).eval s
      = (Expr.evalAll arguments s).bind fun r => invoke function r.1 r.2 := rfl

@[simp] theorem Expr.evalAll_nil : Expr.evalAll [] s = some ([], s) := rfl

/-- Expressions in a row are evaluated from left to right, each in the state that the one
before it leaves. -/
theorem Expr.evalAll_cons (e : Expr) (es : List Expr) : Expr.evalAll (e :: es) s
    = (e.eval s).bind fun r => (Expr.evalAll es r.2).map fun rs => (r.1 :: rs.1, rs.2) := rfl

end Equations

/-! ## Statements -/

/-- How the execution of a suite ends. -/
inductive Exit where
  /-- At its last line. -/
  | normal
  /-- At a `break`, on the way out of a loop. -/
  | left
  deriving DecidableEq

variable (I) in
/-- Work to do: statements, or the passes of a loop that are left. -/
inductive Work where
  | stmt (s : Stmt)
  | suite (ss : List Stmt)
  | passes (target : String) (values : List I.Val) (body : List Stmt)

/-- The work takes the first state to the second and ends in a given way. -/
inductive Exec : Work I → State I → Exit → State I → Prop
  | assign {s t : State I} {x : String} {e : Expr} {v : I.Val} (hvalue : e.eval s = some (v, t)) :
      Exec (.stmt (.assign x e)) s .normal (t.set x v)
  | print {s t : State I} {es : List Expr} {separator : String} {vs : List I.Val}
      {texts : List String} (hvalues : Expr.evalAll es s = some (vs, t))
      (htexts : vs.mapM I.display = some texts) :
      Exec (.stmt (.print es separator)) s .normal (t.print (separator.intercalate texts ++ "\n"))
  | pass {s : State I} : Exec (.stmt .pass) s .normal s
  | leave {s : State I} : Exec (.stmt .leave) s .left s
  | ifTrue {s t u : State I} {e : Expr} {v : I.Val} {body orelse : List Stmt} {exit : Exit}
      (htest : e.eval s = some (v, t)) (hv : I.holds v = true)
      (hbody : Exec (.suite body) t exit u) : Exec (.stmt (.ifElse e body orelse)) s exit u
  | ifFalse {s t u : State I} {e : Expr} {v : I.Val} {body orelse : List Stmt} {exit : Exit}
      (htest : e.eval s = some (v, t)) (hv : I.holds v = false)
      (horelse : Exec (.suite orelse) t exit u) : Exec (.stmt (.ifElse e body orelse)) s exit u
  | whileDone {s t : State I} {e : Expr} {v : I.Val} {body : List Stmt}
      (htest : e.eval s = some (v, t)) (hv : I.holds v = false) :
      Exec (.stmt (.whileLoop e body)) s .normal t
  | whilePass {s t u w : State I} {e : Expr} {v : I.Val} {body : List Stmt} {exit : Exit}
      (htest : e.eval s = some (v, t)) (hv : I.holds v = true)
      (hbody : Exec (.suite body) t .normal u)
      (hagain : Exec (.stmt (.whileLoop e body)) u exit w) :
      Exec (.stmt (.whileLoop e body)) s exit w
  | whileLeft {s t u : State I} {e : Expr} {v : I.Val} {body : List Stmt}
      (htest : e.eval s = some (v, t)) (hv : I.holds v = true)
      (hbody : Exec (.suite body) t .left u) : Exec (.stmt (.whileLoop e body)) s .normal u
  | forRange {s t u : State I} {x : String} {es : List Expr} {vs values : List I.Val}
      {body : List Stmt} {exit : Exit} (hvalues : Expr.evalAll es s = some (vs, t))
      (hrange : I.range vs = some values) (hpasses : Exec (.passes x values body) t exit u) :
      Exec (.stmt (.forRange x es body)) s exit u
  | passed {s : State I} {x : String} {body : List Stmt} : Exec (.passes x [] body) s .normal s
  | nextPass {s t u : State I} {x : String} {v : I.Val} {vs : List I.Val} {body : List Stmt}
      {exit : Exit} (hbody : Exec (.suite body) (s.set x v) .normal t)
      (hothers : Exec (.passes x vs body) t exit u) : Exec (.passes x (v :: vs) body) s exit u
  | passLeft {s t : State I} {x : String} {v : I.Val} {vs : List I.Val} {body : List Stmt}
      (hbody : Exec (.suite body) (s.set x v) .left t) : Exec (.passes x (v :: vs) body) s .normal t
  | nil {s : State I} : Exec (.suite []) s .normal s
  | cons {s t u : State I} {first : Stmt} {others : List Stmt} {exit : Exit}
      (hfirst : Exec (.stmt first) s .normal t) (hothers : Exec (.suite others) t exit u) :
      Exec (.suite (first :: others)) s exit u
  | consLeft {s t : State I} {first : Stmt} {others : List Stmt}
      (hfirst : Exec (.stmt first) s .left t) : Exec (.suite (first :: others)) s .left t

/-- A suite in two parts, of which the first comes to its end. -/
theorem Exec.append {s t u : State I} {first second : List Stmt} {exit : Exit}
    (hfirst : Exec (.suite first) s .normal t) (hsecond : Exec (.suite second) t exit u) :
    Exec (.suite (first ++ second)) s exit u := by
  induction first generalizing s with
  | nil =>
    cases hfirst
    exact hsecond
  | cons a rest ih =>
    cases hfirst with
    | cons ha hrest => exact .cons ha (ih hrest)

/-- Running a suite in two parts runs the first part; the second one runs unless the
first is left. -/
theorem Exec.append_inv {s u : State I} {first second : List Stmt} {exit : Exit}
    (h : Exec (.suite (first ++ second)) s exit u) :
    (∃ t, Exec (.suite first) s .normal t ∧ Exec (.suite second) t exit u) ∨
      (exit = .left ∧ Exec (.suite first) s .left u) := by
  induction first generalizing s with
  | nil => exact .inl ⟨s, .nil, h⟩
  | cons a rest ih =>
    cases h with
    | consLeft ha => exact .inr ⟨rfl, .consLeft ha⟩
    | cons ha hrest =>
      rcases ih hrest with ⟨t, hfirst, hsecond⟩ | ⟨hexit, hleft⟩
      · exact .inl ⟨t, .cons ha hfirst, hsecond⟩
      · subst hexit
        exact .inr ⟨rfl, .cons ha hleft⟩

end Zed.Python
