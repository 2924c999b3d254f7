import Mathlib.Data.List.Induction
import Zed.Proofs.Program.Anatomy

/-!
# What is visible where

The rules of scope, said of places in a program and not of a walk through it. A place lies between
the statements of some block. At a place one sees the statements before it in its block and in the
blocks around it, and the counting loops around it (`Place.Sees`). A name is resolved there if a
statement that is seen defines it: a counting loop over it, or an assignment to it whose own reads
are all resolved at the place where it stands (`Place.Resolves`).

What is seen at a place can be listed from the outside in, and then every
statement sees those before it in the list. So one pass over the list finds the
names that are resolved (`Place.resolves_iff`).
-/

set_option autoImplicit false

namespace Zed

/-! ## Reads -/

def Term.occurrence? : Term → Option Variable
  | .var v => some v
  | .text _ => none
  | .number _ => none

/-- The variables among terms, in order. -/
def Term.variables (ts : List Term) : List Variable :=
  ts.filterMap Term.occurrence?

/-- The variables that an assignment reads: its target if there is an operator to apply to it, and
those of the value. -/
def Statement.assignReads (target : Variable) (value : Value) (operator : Option Arithmetic) :
    List Variable :=
  (if operator.isSome then [target] else []) ++ Term.variables value.leaves

/-- The variable that a statement may define, and the reads that must be resolved for it
to do so. -/
def Statement.definition? : Statement → Option (Variable × List Variable)
  | .assign target value operator => some (target, Statement.assignReads target value operator)
  | .forLoop counter _ _ _ _ => some (counter, [])
  | _ => none

/-- The statement itself if it is a counting loop. -/
def Statement.counting : Statement → List Statement
  | .forLoop counter start stop step body => [.forLoop counter start stop step body]
  | _ => []

/-- Only a counting loop makes something visible to its own body. -/
theorem Statement.counting_cases (s : Statement) :
    s.counting = [] ∨
      ∃ counter start stop step body, s = .forLoop counter start stop step body := by
  cases s with
  | forLoop counter start stop step body => exact .inr ⟨counter, start, stop, step, body, rfl⟩
  | _ => exact .inl rfl

/-! ## Places -/

/-- A place in a program, in front of a statement or behind the last one of a block. -/
structure Place where
  /-- The statements around the place, the outermost first. Each has with it those before it
  in its block. -/
  around : List (List Statement × Statement)
  /-- The statements before the place in its own block. -/
  before : List Statement

namespace Place

/-- In front of the first statement of a program. -/
def start : Place :=
  ⟨[], []⟩

/-- In front of the first statement of a block of `s`, which stands at the place. -/
def inside (place : Place) (s : Statement) : Place :=
  ⟨place.around ++ [(place.before, s)], []⟩

/-- Behind statements that stand at the place. -/
def past (place : Place) (ss : List Statement) : Place :=
  ⟨place.around, place.before ++ ss⟩

/-- The statement `s` stands at `origin` and is seen from the place. -/
inductive Sees : (place origin : Place) → (s : Statement) → Prop
  /-- It comes earlier in the same block. -/
  | same {around : List (List Statement × Statement)} {before later : List Statement}
      {s : Statement} :
      Sees ⟨around, before ++ s :: later⟩ ⟨around, before⟩ s
  /-- It comes earlier in a block around the place. -/
  | enclosing (outer : List (List Statement × Statement))
      {inner : List (List Statement × Statement)} {before later last : List Statement}
      {s t : Statement} :
      Sees ⟨outer ++ (before ++ s :: later, t) :: inner, last⟩ ⟨outer, before⟩ s
  /-- It is a counting loop around the place. -/
  | counting (outer : List (List Statement × Statement)) {inner : List (List Statement × Statement)}
      {before last : List Statement} {counter : Variable} {start stop step : Binary64}
      {body : Block} :
      Sees ⟨outer ++ (before, .forLoop counter start stop step body) :: inner, last⟩ ⟨outer, before⟩
        (.forLoop counter start stop step body)

/-- A statement that is seen from the place defines the name: the reads on which that depends are
resolved where the statement stands. -/
inductive Resolves : Place → String → Prop
  | intro {place origin : Place} {s : Statement} {v : Variable} {reads : List Variable} :
      place.Sees origin s → s.definition? = some (v, reads) →
      (∀ r ∈ reads, Resolves origin r.name) → Resolves place v.name

/-! ## The list of what is seen -/

/-- The statements that are seen from the place, from the outside in. -/
def visible (place : Place) : List Statement :=
  place.around.flatMap (fun level => level.1 ++ level.2.counting) ++ place.before

/-- Inside a statement all is visible that is visible in front of it, and its counter. -/
theorem visible_inside (place : Place) (s : Statement) :
    (place.inside s).visible = place.visible ++ s.counting := by
  simp [visible, inside]

/-- Only a counting loop is seen from inside. -/
theorem visible_inside_of_counting_eq_nil (place : Place) {s : Statement} (h : s.counting = []) :
    (place.inside s).visible = place.visible := by
  rw [visible_inside, h, List.append_nil]

/-- After some statements these are visible too. -/
theorem visible_past (place : Place) (ss : List Statement) :
    (place.past ss).visible = place.visible ++ ss := by
  simp [visible, past]

theorem visible_cons (level : List Statement × Statement) (place : Place) :
    visible ⟨level :: place.around, place.before⟩ = level.1
      ++ (level.2.counting ++ place.visible) := by
  simp [visible]

variable {place origin : Place} {s : Statement} {before later : List Statement} {name : String}

/-- What is seen from the place of a seen statement is listed before it. -/
theorem Sees.exists_visible_eq (h : place.Sees origin s) :
    ∃ later, place.visible = origin.visible ++ s :: later := by
  cases h with
  | @same around before later =>
    refine ⟨later, ?_⟩
    simp only [visible, List.append_assoc]
  | @enclosing outer inner before later last s t =>
    refine ⟨later ++ (t.counting ++ visible ⟨inner, last⟩), ?_⟩
    simp only [visible, List.flatMap_append, List.flatMap_cons, List.append_assoc, List.cons_append]
  | @counting outer inner before last counter start stop step body =>
    refine ⟨visible ⟨inner, last⟩, ?_⟩
    simp only [visible, List.flatMap_append, List.flatMap_cons, List.append_assoc]
    rfl

/-- One more level on the outside changes nothing for what is inside it. -/
theorem Sees.cons (h : place.Sees origin s) (level : List Statement × Statement) :
    Sees ⟨level :: place.around, place.before⟩ ⟨level :: origin.around, origin.before⟩ s := by
  cases h with
  | same => exact .same
  | enclosing outer => exact .enclosing (level :: outer)
  | counting outer => exact .counting (level :: outer)

/-- An element of two lists in a row is in the first one, or in the second one behind all of
the first one. -/
theorem split_append {α : Type} {xs ys before later : List α} {x : α}
    (h : xs ++ ys = before ++ x :: later) :
    (∃ more, xs = before ++ x :: more) ∨ ∃ mid, before = xs ++ mid ∧ ys = mid ++ x :: later := by
  rcases List.append_eq_append_iff.1 h with ⟨mid, hbefore, hys⟩ | ⟨_ | ⟨y, more⟩, hxs, hlater⟩
  · exact .inr ⟨mid, hbefore, hys⟩
  · exact .inr ⟨[], by simpa using hxs.symm, hlater.symm⟩
  · cases hlater
    exact .inl ⟨more, hxs⟩

/-- A statement in the list stands at a place where one sees what is listed before it. -/
theorem exists_sees (h : place.visible = before ++ s :: later) :
    ∃ origin, place.Sees origin s ∧ origin.visible = before := by
  obtain ⟨around, own⟩ := place
  induction around generalizing before with
  | nil =>
    obtain rfl : own = before ++ s :: later := h
    exact ⟨⟨[], before⟩, .same, rfl⟩
  | cons level around ih =>
    obtain ⟨earlier, t⟩ := level
    rw [visible_cons (earlier, t) ⟨around, own⟩] at h
    -- It stands before the level, or is the counting loop there, or stands inside.
    rcases split_append h with ⟨more, rfl⟩ | ⟨mid, rfl, hmid⟩
    · exact ⟨⟨[], before⟩, .enclosing [], rfl⟩
    rcases split_append hmid with ⟨more, hloop⟩ | ⟨rest, rfl, hrest⟩
    · rcases t.counting_cases with hnone | ⟨counter, start, stop, step, body, rfl⟩
      · simp [hnone] at hloop
      · -- The list of a counting loop has no other statement in it.
        obtain ⟨rfl, hloop⟩ | ⟨-, hnone⟩ := List.singleton_eq_append_iff.1 hloop
        · cases hloop
          exact ⟨⟨[], earlier⟩, .counting [], (List.append_nil _).symm⟩
        · cases hnone
    · obtain ⟨origin, hsees, rfl⟩ := ih hrest
      exact ⟨_, hsees.cons (earlier, t), visible_cons (earlier, t) origin⟩

end Place

/-! ## The names that are known -/

/-- The names that are known behind a statement if `known` are in front of it. -/
def Statement.extend (known : String → Bool) (s : Statement) (name : String) : Bool :=
  known name || s.definition?.any fun d => d.1.name == name && d.2.all fun r => known r.name

/-- The names that are known behind statements, each of which sees those before it. -/
def Statement.known (ss : List Statement) : String → Bool :=
  ss.foldl Statement.extend fun _ => false

namespace Statement

variable {known wider : String → Bool} {s : Statement} {ss ts : List Statement} {name : String}

/-- A name is known after a statement if it was before, or if the statement defines it and knows
all it reads. -/
theorem extend_eq_true_iff : extend known s name = true ↔
    known name = true ∨ ∃ v reads, s.definition? = some (v, reads) ∧ v.name = name ∧
      ∀ r ∈ reads, known r.name = true := by
  cases h : s.definition? with
  | none => simp [extend, h]
  | some d => simp [extend, h, Prod.ext_iff]

theorem known_concat : Statement.known (ss ++ [s]) = extend (Statement.known ss) s := by
  rw [Statement.known, List.foldl_append]
  rfl

/-- The more is known in front of statements, the more is known behind them. -/
theorem foldl_extend_mono (h : ∀ name, known name = true → wider name = true) (ss : List Statement)
    (name : String) (hname : ss.foldl extend known name = true) :
    ss.foldl extend wider name = true := by
  induction ss generalizing known wider with
  | nil => exact h name hname
  | cons s ss ih =>
    -- What a statement defines with less known in front of it, it defines with more.
    refine ih (fun other hother => ?_) hname
    rw [extend_eq_true_iff] at hother ⊢
    rcases hother with hknown | ⟨v, reads, hs, rfl, hreads⟩
    · exact .inl (h other hknown)
    · exact .inr ⟨v, reads, hs, rfl, fun r hr => h r.name (hreads r hr)⟩

/-- What is known stays known. -/
theorem foldl_extend_of_known (hname : known name = true) (ss : List Statement) :
    ss.foldl extend known name = true := by
  induction ss generalizing known with
  | nil => exact hname
  | cons s ss ih => exact ih (extend_eq_true_iff.2 (.inl hname))

/-- What is known stays known. -/
theorem known_append_of_known (hname : Statement.known ss name = true) (ts : List Statement) :
    Statement.known (ss ++ ts) name = true := by
  rw [Statement.known, List.foldl_append]
  exact foldl_extend_of_known hname ts

/-- A name is known because of a statement that defines it. -/
theorem exists_of_known (h : Statement.known ss name = true) :
    ∃ before s later v reads, ss = before ++ s :: later ∧ s.definition? = some (v, reads) ∧
      v.name = name ∧
      ∀ r ∈ reads, Statement.known before r.name = true := by
  induction ss using List.reverseRecOn with
  | nil => cases h
  | append_singleton ss s ih =>
    rw [known_concat, extend_eq_true_iff] at h
    rcases h with h | ⟨v, reads, hs, hname, hreads⟩
    · obtain ⟨before, t, later, v, reads, rfl, hrest⟩ := ih h
      exact ⟨before, t, later ++ [s], v, reads, by simp, hrest⟩
    · exact ⟨ss, s, [], v, reads, rfl, hs, hname, hreads⟩

end Statement

namespace Place

variable {place : Place} {name : String}

/-- A name for which there is a definition to go back to is known. -/
theorem Resolves.known (h : place.Resolves name) : Statement.known place.visible name = true := by
  induction h with
  | @intro place origin s v reads hsees hs _ ih =>
    obtain ⟨later, hvisible⟩ := hsees.exists_visible_eq
    rw [hvisible, List.append_cons]
    apply Statement.known_append_of_known
    rw [Statement.known_concat]
    exact Statement.extend_eq_true_iff.2 (.inr ⟨v, reads, hs, rfl, ih⟩)

/-- For a known name there is a definition to go back to. -/
theorem resolves_of_known (h : Statement.known place.visible name = true) :
    place.Resolves name := by
  -- The reads of a defining statement are resolved from the list in front of it, which is shorter.
  induction hlength : place.visible.length using Nat.strongRecOn generalizing place name with
  | ind length ih =>
    obtain ⟨before, s, later, v, reads, hvisible, hs, rfl, hreads⟩ := Statement.exists_of_known h
    obtain ⟨origin, hsees, rfl⟩ := exists_sees hvisible
    have hlt : origin.visible.length < length := by
      rw [← hlength, hvisible, List.length_append, List.length_cons]
      omega
    exact .intro hsees hs fun r hr => ih _ hlt (hreads r hr) rfl

/-- The names that are known at a place are those for which there is a definition to go back to. -/
theorem resolves_iff : place.Resolves name ↔ Statement.known place.visible name = true :=
  ⟨Resolves.known, resolves_of_known⟩

instance (place : Place) (name : String) : Decidable (place.Resolves name) :=
  decidable_of_iff _ resolves_iff.symm

end Place

end Zed
