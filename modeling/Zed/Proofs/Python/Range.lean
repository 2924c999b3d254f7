import Mathlib.Algebra.Order.Group.Unbundled.Int
import Zed.Proofs.Python.Execution

/-!
# Ranges

A loop over a range of integers makes one pass for each of its values. These are `start`,
`start + step` and so on, as long as they have not reached `stop` (`exists_range`); a range whose
step is zero is an error.
-/

set_option autoImplicit false

namespace Zed.Python

/-- The number of values of a range: the distance in steps, rounded up. -/
def rangeLength (start stop step : Int) : Nat :=
  (-Int.fdiv (start - stop) step).toNat

/-- The values of a range in order. -/
def range (start stop step : Int) : Option (List Int) :=
  if step = 0 then none
  else some ((List.range (rangeLength start stop step)).map fun i : Nat => start + i * step)

/-- The value of a constant, or of a sum of constants, that is an integer. -/
def Expr.int? : Expr → Option Int
  | .int n => some n
  | .binary .add left right => (left.int?).bind fun m => (right.int?).map (m + ·)
  | _ => none

/-- The values that a loop over a range with these arguments goes through. The start is zero and the
step is one if they are not given. -/
def turns? (arguments : List Expr) : Option (List Int) :=
  match arguments.mapM Expr.int? with
  | some [stop] => range 0 stop 1
  | some [start, stop] => range start stop 1
  | some [start, stop, step] => range start stop step
  | _ => none

section Upwards

variable {start stop step : Int} (hstep : 0 < step)
include hstep

theorem lt_rangeLength_iff {i : Nat} :
    i < rangeLength start stop step ↔ start + i * step < stop := by
  rw [rangeLength, Int.fdiv_eq_ediv_of_nonneg _ hstep.le, Int.lt_toNat, lt_neg,
    Int.ediv_lt_iff_lt_mul hstep, Int.neg_mul]
  omega

/-- The values of a range with a positive step. -/
theorem exists_range : ∃ values, range start stop step = some values ∧
    ∀ x, x ∈ values ↔ ∃ i : Nat, x = start + i * step ∧ x < stop := by
  refine ⟨_, if_neg (ne_of_gt hstep), fun x => ?_⟩
  rw [List.mem_map]
  constructor
  · rintro ⟨i, hi, rfl⟩
    exact ⟨i, rfl, (lt_rangeLength_iff hstep).1 (List.mem_range.1 hi)⟩
  · rintro ⟨i, rfl, hlt⟩
    exact ⟨i, List.mem_range.2 ((lt_rangeLength_iff hstep).2 hlt), rfl⟩

/-- A range is empty if its first value would have reached the end. -/
theorem range_eq_nil_iff : range start stop step = some [] ↔ stop ≤ start := by
  obtain ⟨values, hvalues, hmem⟩ : ∃ values, range start stop step = some values ∧ _ :=
    exists_range hstep
  rw [hvalues, Option.some_inj, List.eq_nil_iff_forall_not_mem]
  constructor
  · intro hempty
    by_contra hlt
    -- The start itself would be a value.
    refine hempty start ((hmem start).2 ⟨0, ?_, Int.lt_of_not_ge hlt⟩)
    rw [Int.natCast_zero, Int.zero_mul, Int.add_zero]
  · intro hle x hx
    obtain ⟨i, rfl, hlt⟩ := (hmem x).1 hx
    have hfar : 0 ≤ (i : Int) * step := Int.mul_nonneg (Int.natCast_nonneg i) hstep.le
    omega

end Upwards

/-- A range with only an end has as many values. -/
theorem range_count (count : Nat) :
    range 0 count 1 = some ((List.range count).map fun i : Nat => (i : Int)) := by
  have hlength : rangeLength 0 count 1 = count := by
    rw [rangeLength, Int.fdiv_one, Int.zero_sub, Int.neg_neg, Int.toNat_natCast]
  rw [range, if_neg (by decide), hlength]
  simp only [Int.mul_one, Int.zero_add]

end Zed.Python
