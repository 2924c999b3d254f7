import Zed.Script.Body

/-!
# Primitive operations and states

What programs and scripts compute depends on the values they work with. `Primitives` leaves all of
that open: what the values are, how they are compared, displayed, combined and read from the input,
and which of them count as true. An operation that gives `none` fails, and so does the run that
needed it. There are two laws: a truth value counts as itself, and texts are joined by addition,
since prompts are put together that way.

A state is what a run can change: the variables, what is left of the input, and what was printed.
-/

set_option autoImplicit false

namespace Zed

/-- The comparisons, which are the relations other than the logical ones. -/
inductive Comparison where
  | atLeast | atMost | greater | less | equal
  deriving DecidableEq, Repr

/-- An interpretation of the primitive operations. -/
structure Primitives where
  /-- The values of variables and expressions. -/
  Val : Type
  /-- What is left of the input. -/
  Input : Type
  /-- A whole number. -/
  whole : Nat → Val
  /-- A number with a fraction. -/
  fraction : Binary64 → Val
  /-- A string. -/
  text : String → Val
  /-- A truth value. -/
  truth : Bool → Val
  /-- The value counts as true. -/
  holds : Val → Bool
  /-- The result of a comparison. -/
  compare : Comparison → Val → Val → Option Val
  /-- The sum. -/
  add : Val → Val → Option Val
  /-- The product. -/
  mul : Val → Val → Option Val
  /-- A value as text. -/
  display : Val → Option String
  /-- A value rounded to a number of decimal places. -/
  round : Val → Val → Option Val
  /-- The values that a range with the given arguments runs through. -/
  range : List Val → Option (List Val)
  /-- The result of updating an old value by a given one with the operator that a text names. -/
  update : Val → Val → Val → Option Val
  /-- Asks for a value with a prompt: the value, what is left of the input, and what
  appears in print. -/
  ask : Val → Input → Option (Val × Input × String)
  /-- Of the truth values only one counts as true. -/
  holds_truth (b : Bool) : holds (truth b) = b
  /-- Texts are joined by addition. -/
  add_text (a b : String) : add (text a) (text b) = some (text (a ++ b))

namespace Primitives

/-- The whole part of a magnitude. -/
def wholePart : Binary64 → Nat
  | .finite _ rank => Binary64.units rank / Binary64.unitsPerOne
  | _ => 0

/-- The value of a number: a whole number if it has no fraction. -/
def number (I : Primitives) (x : Binary64) : I.Val :=
  if x.isWhole then I.whole (wholePart x) else I.fraction x

/-- The value of a constant. -/
def literal (I : Primitives) : Literal → I.Val
  | .text body => I.text body
  | .number x => I.number x

/-- The value that a loop from `start` in steps of `step` has in its pass number `n`, if its bounds
or its step have a fraction. -/
def placed (I : Primitives) (start step : Binary64) (n : I.Val) : Option I.Val := do
  let distance ← I.mul n (I.number step)
  let exact ← I.add (I.number start) distance
  I.round exact (I.whole (max (Script.places start) (Script.places step)))

/-- The values that a counting loop runs through. -/
def counterValues (I : Primitives) (start stop step : Binary64) : Option (List I.Val) :=
  if Script.countsWhole start stop step then do
    let limit ← I.add (I.number stop) (I.whole 1)
    I.range [I.number start, limit, I.number step]
  else do
    let ns ← I.range [I.whole (Script.passes start stop step)]
    ns.mapM (I.placed start step)

end Primitives

/-- What a run can change. -/
structure State (I : Primitives) where
  /-- The values of the variables that have one. -/
  store : String → Option I.Val
  /-- What is left of the input. -/
  input : I.Input
  /-- What was printed. -/
  output : String

namespace State

variable {I : Primitives}

/-- The state in which a run starts: no variable has a value and nothing was printed. -/
def start (input : I.Input) : State I :=
  ⟨fun _ => none, input, ""⟩

/-- Gives a variable a value. -/
def set (s : State I) (x : String) (v : I.Val) : State I :=
  { s with store := fun y => if y = x then some v else s.store y }

/-- Prints a text. -/
def print (s : State I) (text : String) : State I :=
  { s with output := s.output ++ text }

/-- Asks for a value. -/
def ask (s : State I) (prompt : I.Val) : Option (I.Val × State I) :=
  (I.ask prompt s.input).map fun answer =>
    (answer.1, { s with input := answer.2.1, output := s.output ++ answer.2.2 })

/-- A variable has the value it was last set to. -/
@[simp] theorem store_set_self (s : State I) (x : String) (v : I.Val) :
    (s.set x v).store x = some v := by
  simp [set]

/-- Setting a variable changes no other one. -/
@[simp] theorem store_set_of_ne (s : State I) {x y : String} (v : I.Val) (h : y ≠ x) :
    (s.set x v).store y = s.store y := by
  simp [set, h]

@[simp] theorem input_set (s : State I) (x : String) (v : I.Val) :
    (s.set x v).input = s.input := rfl

@[simp] theorem output_set (s : State I) (x : String) (v : I.Val) :
    (s.set x v).output = s.output := rfl

end State

end Zed
