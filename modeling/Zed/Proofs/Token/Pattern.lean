import Mathlib.Data.List.Basic
import Zed.Token.Lexeme

/-!
# Patterns

Regular expressions over a line of text, matched by backtracking. `Pattern.ends` lists the columns
at which a match can end, the preferred one first: what is repeated is repeated as often as
possible, and an alternative is tried only after the ones before it. A sequence takes the first
match of its first part that lets the second part match, which is what going back to a shorter match
amounts to. The match itself is the first column of the list.

A repetition is cut off after as many rounds as there are characters left. This is no restriction: a
round has to take a character, and `ends_many` gives the repetition without any count.

The second half is about runs of characters of one class. Such a run can end at each of its
characters, and mostly all but the last of these ends are given up again (`flatMap_downTo`).
-/

set_option autoImplicit false

namespace Zed

/-- A regular expression over the characters of a line. -/
inductive Pattern where
  /-- Nothing. -/
  | empty
  /-- One character of a class. -/
  | one (member : Char → Bool)
  /-- The one and then the other. -/
  | seq (first second : Pattern)
  /-- The one or else the other. -/
  | either (first second : Pattern)
  /-- Any number of times, and as often as possible. -/
  | many (body : Pattern)
  /-- The beginning or the end of a word. -/
  | boundary

namespace Pattern

/-- The class of the characters in some ranges, which include both their ends. -/
def within (ranges : List (Char × Char)) (c : Char) : Bool :=
  ranges.any fun range => range.1 ≤ c && c ≤ range.2

/-- The characters that words are made of. -/
def isWord : Char → Bool :=
  within [('A', 'Z'), ('a', 'z'), ('0', '9'), ('_', '_')]

/-- Of the characters before and behind a column, exactly one belongs to a word. -/
def atBoundary (row : List Char) (i : Nat) : Bool :=
  (i != 0 && row[i - 1]?.any isWord) != row[i]?.any isWord

/-- The ends of at most `limit` rounds, more rounds first. A round that takes nothing is none. -/
def rounds (step : Nat → List Nat) : (limit : Nat) → Nat → List Nat
  | 0, i => [i]
  | limit + 1, i => ((step i).filter (i < ·)).flatMap (rounds step limit) ++ [i]

/-- The columns at which a match that begins at a column can end, in the order of preference. -/
def ends (row : List Char) : Pattern → Nat → List Nat
  | empty, i => [i]
  | one member, i => if row[i]?.any member then [i + 1] else []
  | seq first second, i => (ends row first i).flatMap (ends row second)
  | either first second, i => ends row first i ++ ends row second i
  | many body, i => rounds (ends row body) (row.length - i) i
  | boundary, i => if atBoundary row i then [i] else []

/-- Once or not at all. -/
def optional (p : Pattern) : Pattern :=
  either p empty

/-- At least once. -/
def plus (p : Pattern) : Pattern :=
  seq p (many p)

/-- The characters one after the other. -/
def literal : List Char → Pattern
  | [] => empty
  | c :: cs => seq (one (· == c)) (literal cs)

/-- One of the texts. -/
def anyOf : List String → Pattern
  | [] => one fun _ => false
  | text :: texts => either (literal text.toList) (anyOf texts)

variable {row : List Char}

/-! ## Repetition -/

/-- A match does not go beyond the line. -/
theorem le_of_mem_ends {p : Pattern} {i j : Nat} (h : j ∈ ends row p i) : j ≤ max i row.length := by
  induction p generalizing i j with
  | empty =>
    rw [List.mem_singleton.1 h]
    exact Nat.le_max_left _ _
  | one member =>
    rw [ends] at h
    split at h
    · next hany =>
      cases hc : row[i]? with
      | none =>
        rw [hc] at hany
        cases hany
      | some c =>
        obtain ⟨hlt, -⟩ := List.getElem?_eq_some_iff.1 hc
        rw [List.mem_singleton.1 h]
        exact Nat.le_trans hlt (Nat.le_max_right _ _)
    · cases h
  | seq first second ih ih' =>
    obtain ⟨k, hk, hj⟩ := List.mem_flatMap.1 h
    have := ih hk
    have := ih' hj
    omega
  | either first second ih ih' => exact (List.mem_append.1 h).elim ih ih'
  | many body ih =>
    rw [ends] at h
    generalize row.length - i = limit at h
    induction limit generalizing i with
    | zero =>
      rw [List.mem_singleton.1 h]
      exact Nat.le_max_left _ _
    | succ limit ih' =>
      rcases List.mem_append.1 h with h | h
      · obtain ⟨k, hk, hj⟩ := List.mem_flatMap.1 h
        have := ih (List.mem_filter.1 hk).1
        have := ih' hj
        omega
      · rw [List.mem_singleton.1 h]
        exact Nat.le_max_left _ _
  | boundary =>
    rw [ends] at h
    split at h
    · rw [List.mem_singleton.1 h]
      exact Nat.le_max_left _ _
    · cases h

/-- From the end of the line on no round takes a character. -/
theorem rounds_eq {p : Pattern} {limit limit' i : Nat} (h : row.length ≤ limit + i)
    (h' : row.length ≤ limit' + i) :
    rounds (ends row p) limit i = rounds (ends row p) limit' i := by
  have hstop : ∀ i, row.length ≤ i → (ends row p i).filter (i < ·) = [] := by
    intro i hi
    rw [List.filter_eq_nil_iff]
    intro j hj
    have := le_of_mem_ends hj
    rw [decide_eq_true_eq]
    omega
  -- Each round moves on by a column at least, so both limits go down together until the line ends.
  induction limit generalizing i limit' with
  | zero =>
    cases limit' with
    | zero => rfl
    | succ limit' =>
      rw [rounds, rounds, hstop i (by omega)]
      rfl
  | succ limit ih =>
    cases limit' with
    | zero =>
      rw [rounds, rounds, hstop i (by omega)]
      rfl
    | succ limit' =>
      rw [rounds, rounds]
      congr 1
      apply List.flatMap_congr
      intro j hj
      have hlt : i < j := of_decide_eq_true (List.mem_filter.1 hj).2
      exact ih (by omega) (by omega)

/-- A repetition is one round and the repetition from there on, or nothing. -/
theorem ends_many (p : Pattern) (i : Nat) :
    ends row (many p) i = ((ends row p i).filter (i < ·)).flatMap (ends row (many p)) ++ [i] := by
  have hmore : ends row (many p) i = rounds (ends row p) (row.length - i + 1) i :=
    rounds_eq (by omega) (by omega)
  rw [hmore, rounds]
  congr 1
  apply List.flatMap_congr
  intro j hj
  have hlt : i < j := of_decide_eq_true (List.mem_filter.1 hj).2
  exact rounds_eq (by omega) (by omega)

/-! ## Single characters -/

section Head

variable {i : Nat} {c : Char} {cs : List Char}

theorem getElem?_of_drop (h : row.drop i = c :: cs) : row[i]? = some c := by
  rw [← List.head?_drop, h, List.head?_cons]

theorem drop_succ_of_drop (h : row.drop i = c :: cs) : row.drop (i + 1) = cs := by
  rw [← List.drop_drop, h, List.drop_one, List.tail_cons]

theorem ends_one (member : Char → Bool) (h : row.drop i = c :: cs) :
    ends row (one member) i = if member c then [i + 1] else [] := by
  rw [ends, getElem?_of_drop h, Option.any_some]

theorem ends_one_nil (member : Char → Bool) (h : row.drop i = []) :
    ends row (one member) i = [] := by
  rw [ends, ← List.head?_drop, h]
  rfl

end Head

/-! ## Runs of one class -/

/-- The columns from `i + k` down to `i`. -/
def downTo (i : Nat) : Nat → List Nat
  | 0 => [i]
  | k + 1 => downTo (i + 1) k ++ [i]

/-- The longest match of a run comes first. -/
theorem head?_downTo (i k : Nat) : (downTo i k).head? = some (i + k) := by
  induction k generalizing i with
  | zero => rfl
  | succ k ih =>
    rw [downTo, List.head?_append, ih, Option.some_or]
    congr 1
    omega

/-- Only the first of the columns is of use. -/
theorem flatMap_downTo {f : Nat → List Nat} {i k : Nat} (h : ∀ j, i ≤ j → j < i + k → f j = []) :
    (downTo i k).flatMap f = f (i + k) := by
  induction k generalizing i with
  | zero => exact List.flatMap_singleton ..
  | succ k ih =>
    rw [downTo, List.flatMap_append, ih fun j hi hj => h j (by omega) (by omega),
      List.flatMap_singleton, h i (Nat.le_refl i) (by omega), List.append_nil]
    congr 1
    omega

/-- The length of the run of characters of a class from a column on. -/
def runLength (row : List Char) (member : Char → Bool) (i : Nat) : Nat :=
  ((row.drop i).takeWhile member).length

/-- A run of one class can end behind any number of its characters, and prefers to take them all. -/
theorem ends_run (member : Char → Bool) (i : Nat) :
    ends row (many (one member)) i = downTo i (runLength row member i) := by
  -- The induction is on the rest of the line, one round for each of its characters.
  rw [runLength]
  generalize hcs : row.drop i = cs
  induction cs generalizing i with
  | nil =>
    rw [ends_many, ends_one_nil member hcs]
    rfl
  | cons c cs ih =>
    rw [ends_many, ends_one member hcs, List.takeWhile_cons]
    cases member c with
    | false => rfl
    | true =>
      have hfilter : [i + 1].filter (i < ·) = [i + 1] := by simp
      simp only [if_true, hfilter, List.flatMap_singleton, ih (i + 1) (drop_succ_of_drop hcs)]
      rfl

/-- Every character of a run is of its class. -/
theorem getElem?_run {member : Char → Bool} {i j : Nat} (hi : i ≤ j)
    (hj : j < i + runLength row member i) :
    ∃ c, row[j]? = some c ∧ member c = true := by
  obtain ⟨n, rfl⟩ := Nat.exists_eq_add_of_le hi
  have hn : n < runLength row member i := Nat.lt_of_add_lt_add_left hj
  rw [runLength] at hn
  rw [← List.getElem?_drop]
  have hsplit := (row.drop i).takeWhile_append_dropWhile (p := member)
  have hrun : ∀ c ∈ (row.drop i).takeWhile member, member c = true :=
    List.all_eq_true.1 List.all_takeWhile
  generalize (row.drop i).takeWhile member = run at hn hsplit hrun
  rw [← hsplit, List.getElem?_append_left hn]
  exact ⟨run[n], List.getElem?_eq_getElem hn, hrun _ (List.getElem_mem hn)⟩

/-- A run is followed by what is left when it is dropped. -/
theorem drop_takeWhile (member : Char → Bool) (cs : List Char) :
    cs.drop (cs.takeWhile member).length = cs.dropWhile member := by
  have hsplit := cs.takeWhile_append_dropWhile (p := member)
  generalize cs.takeWhile member = run, cs.dropWhile member = rest at hsplit ⊢
  rw [← hsplit]
  exact List.drop_left

/-- Behind the longest run there is no character of the class. -/
theorem drop_run (member : Char → Bool) (i : Nat) :
    row.drop (i + runLength row member i) = (row.drop i).dropWhile member := by
  rw [← List.drop_drop, runLength, drop_takeWhile]

/-! ## Boundaries -/

/-- Inside a word there is no boundary. -/
theorem ends_boundary_inside {i : Nat} {c d : Char} (hc : row[i]? = some c)
    (hword : isWord c = true) (hd : row[i + 1]? = some d) (hword' : isWord d = true) :
    ends row boundary (i + 1) = [] := by
  rw [ends, atBoundary, Nat.add_sub_cancel, hc, hd, Option.any_some, Option.any_some, hword, hword']
  rfl

/-- Behind a character of a word there is a boundary unless the word goes on. -/
theorem ends_boundary_behind {i : Nat} {c : Char} (hc : row[i]? = some c)
    (hword : isWord c = true) :
    ends row boundary (i + 1) = if (row.drop (i + 1)).head?.any isWord then [] else [i + 1] := by
  rw [ends, atBoundary, Nat.add_sub_cancel, hc, Option.any_some, hword, List.head?_drop]
  cases row[i + 1]?.any isWord <;> rfl

/-! ## Literal texts -/

/-- A literal matches exactly where it stands. -/
theorem ends_literal (cs : List Char) (i : Nat) :
    ends row (literal cs) i = if cs.isPrefixOf (row.drop i) then [i + cs.length] else [] := by
  induction cs generalizing i with
  | nil => rfl
  | cons c cs ih =>
    rw [literal, ends]
    cases hrest : row.drop i with
    | nil => rw [ends_one_nil _ hrest]; rfl
    | cons d ds =>
      rw [ends_one _ hrest, List.isPrefixOf_cons_cons, Bool.beq_comm]
      cases c == d with
      | false => rfl
      | true =>
        rw [if_pos rfl, List.flatMap_singleton, ih, drop_succ_of_drop hrest, Bool.true_and,
          List.length_cons, Nat.add_right_comm, Nat.add_assoc]

/-- One of several texts matches where any of them does, in their order. -/
theorem ends_anyOf (texts : List String) (i : Nat) :
    ends row (anyOf texts) i = texts.flatMap fun text => ends row (literal text.toList) i := by
  induction texts with
  | nil =>
    rw [anyOf, ends]
    cases row[i]? <;> rfl
  | cons text texts ih => rw [anyOf, ends, ih, List.flatMap_cons]

end Pattern

end Zed
