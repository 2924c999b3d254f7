import Mathlib.Tactic.FieldSimp
import Zed.Proofs.Number.Numeral
import Zed.Proofs.Python.Range
import Zed.Proofs.Program.Integrity
import Zed.Proofs.Script.Line

/-!
# Loops that make no pass

A counting loop becomes one of two loops over a range. If its bounds and its step are whole,
Python counts, and there is no pass exactly if the end is below the start. If not, the
passes are counted beforehand, and then a quotient that is below zero by no more than the
tolerance still counts as zero steps. So there is no pass exactly if the quotient is below
the negative tolerance (`Script.passes_eq_zero_iff`).

Main result: `Reading.forLoop_idle_iff`. An end that is not below the start always gives a pass. An
end that is below it gives none, unless it is so by no more than about a billionth of a step; then
there is one pass.
-/

set_option autoImplicit false

namespace Zed

open Binary64

namespace Script

/-! ## The tolerance -/

/-- The rank of the tolerance. -/
def toleranceRank : Fin rankCount :=
  ⟨nearestRank unitsPerOne (Nat.pow 10 9), by decide +kernel⟩

theorem tolerance_eq : tolerance = .finite false toleranceRank := by
  unfold tolerance ofQuotient
  exact dif_pos toleranceRank.isLt

theorem neg_tolerance_eq : -tolerance = .finite true toleranceRank := by
  rw [tolerance_eq]
  rfl

/-- A rounded negative quotient is below the negative tolerance if its rank is above that
of the tolerance. -/
theorem ofQuotient_lt_neg_tolerance_iff {num den : Nat} :
    ofQuotient true num den < -tolerance ↔ toleranceRank < nearestRank num den := by
  rw [neg_tolerance_eq]
  rcases ofQuotient_cases true num den with ⟨rank, hfinite, hrank⟩ | ⟨hinfinite, hlarge⟩
  · rw [hfinite, ← hrank, finite_lt_finite, ← units_lt_units]
    show -(units rank : Int) < -(units toleranceRank : Int) ↔ _
    omega
  · rw [hinfinite, infinite_lt_finite]
    exact ⟨fun _ => Nat.lt_of_lt_of_le toleranceRank.isLt hlarge, fun _ => rfl⟩

/-! ## Counting passes -/

/-- The number of passes by the number of steps, with the tolerance added, if it is counted without
any bound. There is none for infinitely many steps. -/
def exactPasses? : Binary64 → Option Nat
  | .finite negative rank => some (Binary64.floor negative rank + 1).toNat
  | .infinite true => some 0
  | .infinite false => none
  | .nan => some 1

/-- The number of passes is below `2 ^ 64`. -/
def PassesFit (start stop step : Binary64) : Prop :=
  ∃ count ∈ exactPasses? ((stop - start) / step + tolerance), count < 2 ^ 64

instance (start stop step : Binary64) : Decidable (PassesFit start stop step) :=
  inferInstanceAs (Decidable (∃ count ∈ exactPasses? _, count < 2 ^ 64))

/-- The count is right as long as it fits. Beyond that the addition runs over, and the
count is zero. -/
theorem toNat_saturate_add_one (steps : Nat) :
    (saturate steps + 1).toNat = if steps + 1 < 2 ^ 64 then steps + 1 else 0 := by
  have hlt : min steps (UInt64.size - 1) < 2 ^ 64 :=
    Nat.lt_of_le_of_lt (Nat.min_le_right _ _) (by decide)
  rw [saturate, UInt64.toNat_add, UInt64.toNat_ofNat_of_lt' hlt]
  change (min steps (2 ^ 64 - 1) + 1) % 2 ^ 64 = _
  split <;> omega

/-- A finite number of steps, counted with 64 bits. -/
theorem passesOfSteps_finite (negative : Bool) (rank : Fin rankCount) :
    passesOfSteps (.finite negative rank)
      = if (Binary64.floor negative rank + 1).toNat < 2 ^ 64
        then (Binary64.floor negative rank + 1).toNat else 0 := by
  simp only [passesOfSteps, toNat_saturate_add_one]
  generalize Binary64.floor negative rank = steps
  by_cases hneg : steps < 0
  · have hnone : (steps + 1).toNat = 0 := by omega
    rw [if_pos hneg, hnone]
    rfl
  · have hcount : (steps + 1).toNat = steps.toNat + 1 := by omega
    rw [if_neg hneg, hcount]

/-- A count that fits is the number of passes. -/
theorem passes_eq_of_mem {start stop step : Binary64} {count : Nat}
    (h : count ∈ exactPasses? ((stop - start) / step + tolerance)) (hfits : count < 2 ^ 64) :
    passes start stop step = count := by
  rw [passes]
  generalize (stop - start) / step + tolerance = steps at h ⊢
  cases steps with
  | nan => exact Option.some_inj.1 h
  | infinite negative =>
    cases negative with
    | true => exact Option.some_inj.1 h
    | false => cases h
  | finite negative rank =>
    obtain rfl := Option.some_inj.1 h
    rw [passesOfSteps_finite, if_pos hfits]

/-- A loop whose passes cannot be counted with 64 bits makes none at all. -/
theorem passes_of_not_passesFit {start stop step : Binary64} (h : ¬ PassesFit start stop step) :
    passes start stop step = 0 := by
  rw [PassesFit] at h
  rw [passes]
  generalize (stop - start) / step + tolerance = steps at h ⊢
  cases steps with
  | nan => exact absurd ⟨1, rfl, by decide⟩ h
  | infinite negative => cases negative <;> rfl
  | finite negative rank =>
    rw [passesOfSteps_finite, if_neg fun hlt => h ⟨_, rfl, hlt⟩]

/-- Below zero there is no pass. -/
theorem exactPasses?_negative {rank : Fin rankCount} (h : rank.val ≠ 0) :
    exactPasses? (.finite true rank) = some 0 := by
  have hunits := units_pos h
  have hfloor : Binary64.floor true rank < 0 :=
    Int.ediv_neg_of_neg_of_pos (by show -(units rank : Int) < 0; omega)
      (Int.natCast_pos.2 unitsPerOne_pos)
  have hnone : (Binary64.floor true rank + 1).toNat = 0 := by omega
  rw [exactPasses?, hnone]

/-- From zero on there is one pass more than there are whole ones. -/
theorem exactPasses?_unsigned (rank : Fin rankCount) :
    exactPasses? (.finite false rank) = some (units rank / unitsPerOne + 1) := by
  have hfloor : Binary64.floor false rank = ((units rank / unitsPerOne : Nat) : Int) := rfl
  rw [exactPasses?, hfloor]
  rfl

theorem exactPasses?_unsigned_ne_zero (rank : Fin rankCount) :
    exactPasses? (.finite false rank) ≠ some 0 := by
  rw [exactPasses?_unsigned, Ne, Option.some_inj]
  exact Nat.succ_ne_zero _

/-- A sum that is rounded below zero gives no pass, any other at least one. -/
theorem exactPasses?_ofQuotient {s : Bool} {num : Nat} (h : num ≠ 0) :
    exactPasses? (ofQuotient s num 1) = some 0 ↔ s = true := by
  rcases ofQuotient_cases s num 1 with ⟨rank, hfinite, hrank⟩ | ⟨hinfinite, -⟩
  · rw [hfinite]
    have hzero : rank.val ≠ 0 := hrank ▸ nearestRank_ne_zero h
    cases s with
    | true => exact ⟨fun _ => rfl, fun _ => exactPasses?_negative hzero⟩
    | false => exact ⟨fun hcount => absurd hcount (exactPasses?_unsigned_ne_zero rank), nofun⟩
  · rw [hinfinite]
    cases s with
    | true => exact ⟨fun _ => rfl, fun _ => rfl⟩
    | false => exact ⟨nofun, nofun⟩

/-- The sum of a finite number and the tolerance. -/
theorem add_tolerance_eq (s : Bool) (rank : Fin rankCount) :
    finite s rank + tolerance
      = if signedUnits s rank + units toleranceRank = 0 then zero (s && false)
        else ofQuotient (signedUnits s rank + units toleranceRank < 0)
          (signedUnits s rank + units toleranceRank).natAbs 1 := by
  rw [tolerance_eq]
  rfl

/-- A number is below zero by more than the tolerance, in terms of units. -/
theorem finite_lt_neg_tolerance_iff {s : Bool} {rank : Fin rankCount} :
    finite s rank < -tolerance ↔ signedUnits s rank + units toleranceRank < 0 := by
  rw [neg_tolerance_eq, finite_lt_finite]
  show _ < -(units toleranceRank : Int) ↔ _
  omega

/-- Counted without a bound, there is no pass exactly if the quotient is below
the negative tolerance. -/
theorem exactPasses?_add_tolerance_eq_zero_iff (x : Binary64) :
    exactPasses? (x + tolerance) = some 0 ↔ x < -tolerance := by
  cases x with
  | nan =>
    refine ⟨fun h => ?_, fun h => absurd h (not_nan_lt _)⟩
    exact absurd (Option.some_inj.1 h) Nat.one_ne_zero
  | infinite s =>
    rw [neg_tolerance_eq, infinite_lt_finite, tolerance_eq]
    cases s with
    | true => exact ⟨fun _ => rfl, fun _ => rfl⟩
    | false => exact ⟨nofun, nofun⟩
  | finite s rank =>
    rw [finite_lt_neg_tolerance_iff, add_tolerance_eq]
    split
    · next hzero =>
      rw [hzero, Bool.and_false]
      exact ⟨fun hcount => absurd hcount (exactPasses?_unsigned_ne_zero _),
        fun hlt => absurd hlt (by decide)⟩
    · next hne =>
      -- Rounding keeps the sign of a sum other than zero, since a unit is not rounded away.
      rw [exactPasses?_ofQuotient (Int.natAbs_ne_zero.2 hne)]
      exact decide_eq_true_iff

/-- A loop whose passes can be counted makes none exactly if its quotient is below
the negative tolerance. -/
theorem passes_eq_zero_iff {start stop step : Binary64} (hfits : PassesFit start stop step) :
    passes start stop step = 0 ↔ (stop - start) / step < -tolerance := by
  obtain ⟨count, hcount, hlt⟩ := hfits
  rw [← exactPasses?_add_tolerance_eq_zero_iff, passes_eq_of_mem hcount hlt,
    Option.mem_def.1 hcount, Option.some_inj]

/-! ## The end and the start -/

theorem not_ofQuotient_false_lt (num den : Nat) : ¬ ofQuotient false num den < -tolerance := by
  rcases ofQuotient_cases false num den with ⟨rank, hfinite, -⟩ | ⟨hinfinite, -⟩
  · rw [hfinite, finite_lt_neg_tolerance_iff]
    show ¬ (units rank : Int) + units toleranceRank < 0
    omega
  · rw [hinfinite, neg_tolerance_eq, infinite_lt_finite]
    exact Bool.false_ne_true

/-- The tolerance is less than one. -/
theorem units_toleranceRank_lt : units toleranceRank < unitsPerOne := by decide +kernel

/-- Below one there is one pass. -/
theorem exactPasses?_of_lt {rank : Fin rankCount} (h : units rank < unitsPerOne) :
    exactPasses? (.finite false rank) = some 1 := by
  rw [exactPasses?_unsigned, Nat.div_eq_of_lt h]

section Bounds

variable {a b c : Fin rankCount} (hc : c.val ≠ 0)
include hc

/-- The quotient of a loop whose end is below its start. -/
theorem quotient_of_lt (h : units b < units a) :
    (finite false b - finite false a) / finite false c
      = ofQuotient true (units (nearestRank (units a - units b) 1) * unitsPerOne) (units c) := by
  obtain ⟨r, hr, hrank⟩ := exists_sub_of_lt h
  rw [hr, div_unsigned hc, hrank]

/-- The quotient of a loop whose end is not below its start is not negative. -/
theorem not_quotient_lt_of_le (h : units a ≤ units b) :
    ¬ (finite false b - finite false a) / finite false c < -tolerance := by
  rw [sub_unsigned]
  split
  · rw [zero, div_unsigned hc]
    exact not_ofQuotient_false_lt _ _
  · rw [decide_eq_false (by omega)]
    rcases ofQuotient_cases false ((units b : Int) - units a).natAbs 1 with
      ⟨rank, hfinite, -⟩ | ⟨hinfinite, -⟩
    · rw [hfinite, div_unsigned hc]
      exact not_ofQuotient_false_lt _ _
    · rw [hinfinite, neg_tolerance_eq]
      exact Bool.false_ne_true

/-- If the end is below the start and there is a pass all the same, there is only one. -/
theorem passes_eq_one (h : units b < units a)
    (hnear : ¬ (finite false b - finite false a) / finite false c < -tolerance) :
    passes (finite false a) (finite false b) (finite false c) = 1 := by
  refine passes_eq_of_mem ?_ (by decide : 1 < 2 ^ 64)
  rw [quotient_of_lt hc h] at hnear ⊢
  generalize units (nearestRank (units a - units b) 1) * unitsPerOne = num at hnear ⊢
  rcases ofQuotient_cases true num (units c) with ⟨q, hfinite, -⟩ | ⟨hinfinite, hlarge⟩
  · -- The quotient and the tolerance add up to something between zero and the tolerance.
    rw [hfinite, finite_lt_neg_tolerance_iff] at hnear
    have hsum : signedUnits true q + units toleranceRank
        = (units toleranceRank : Int) - units q := by
      show -(units q : Int) + _ = _
      omega
    rw [hsum] at hnear
    rw [hfinite, add_tolerance_eq, hsum]
    split
    · exact exactPasses?_of_lt unitsPerOne_pos
    · rw [decide_eq_false hnear]
      have hle : nearestRank ((units toleranceRank : Int) - units q).natAbs 1 ≤ toleranceRank :=
        nearestRank_le Nat.one_pos (by omega)
      rcases ofQuotient_cases false ((units toleranceRank : Int) - units q).natAbs 1 with
        ⟨rank, hrank, hval⟩ | ⟨-, hlarge⟩
      · rw [hrank]
        apply exactPasses?_of_lt
        rw [hval]
        exact Nat.lt_of_le_of_lt (units_strictMono.monotone hle) units_toleranceRank_lt
      · have hlt := toleranceRank.isLt
        omega
  · rw [ofQuotient_lt_neg_tolerance_iff] at hnear
    have hlt := toleranceRank.isLt
    omega

/-! The tolerance is a billionth only up to rounding, and so are the difference and the quotient. A
part in `2 ^ 50` covers all three. -/

/-- If the end is below the start by more than a billionth of the step, the quotient is
below the tolerance. -/
theorem quotient_lt_of_far (h : units b < units a)
    (hfar : units c * (2 ^ 50 + 1) < (units a - units b) * (10 ^ 9 * 2 ^ 50)) :
    (finite false b - finite false a) / finite false c < -tolerance := by
  -- The next number above the tolerance is still within the part of `2 ^ 50`.
  have hnext : units (toleranceRank.val + 1) * (10 ^ 9 * 2 ^ 50 * (2 * binade))
      ≤ (2 ^ 50 + 1) * (2 * binade - 1) * unitsPerOne := by decide +kernel
  have hround := (units_nearestRank_near (units a - units b)).1
  rw [quotient_of_lt hc h, ofQuotient_lt_neg_tolerance_iff, Nat.lt_iff_add_one_le]
  generalize toleranceRank.val + 1 = next at hnext ⊢
  generalize units a - units b = gap at hfar hround ⊢
  generalize units (nearestRank gap 1) = rounded at hround ⊢
  have hgap : (2 * binade - 1) * gap ≤ 2 * binade * rounded := by
    rw [Nat.sub_mul]
    omega
  have hscale : 0 < 10 ^ 9 * 2 ^ 50 * (2 * binade) := by decide
  refine le_nearestRank (units_pos hc) (Nat.le_of_mul_le_mul_right ?_ hscale)
  calc units next * units c * (10 ^ 9 * 2 ^ 50 * (2 * binade))
      = units next * (10 ^ 9 * 2 ^ 50 * (2 * binade)) * units c := Nat.mul_right_comm _ _ _
    _ ≤ (2 ^ 50 + 1) * (2 * binade - 1) * unitsPerOne * units c := Nat.mul_le_mul_right _ hnext
    _ = units c * (2 ^ 50 + 1) * ((2 * binade - 1) * unitsPerOne) := by ring
    _ ≤ gap * (10 ^ 9 * 2 ^ 50) * ((2 * binade - 1) * unitsPerOne) := Nat.mul_le_mul_right _ hfar.le
    _ = (2 * binade - 1) * gap * (10 ^ 9 * 2 ^ 50 * unitsPerOne) := by ring
    _ ≤ 2 * binade * rounded * (10 ^ 9 * 2 ^ 50 * unitsPerOne) := Nat.mul_le_mul_right _ hgap
    _ = rounded * unitsPerOne * (10 ^ 9 * 2 ^ 50 * (2 * binade)) := by ring

/-- If it is so by less, the quotient is within the tolerance. -/
theorem not_quotient_lt_of_near (h : units b < units a)
    (hnear : (units a - units b) * (10 ^ 9 * 2 ^ 50) ≤ units c * (2 ^ 50 - 1)) :
    ¬ (finite false b - finite false a) / finite false c < -tolerance := by
  have htolerance : (2 ^ 50 - 1) * (2 * binade + 1) * unitsPerOne
      ≤ units toleranceRank * (10 ^ 9 * 2 ^ 50 * (2 * binade)) := by decide +kernel
  have hround := (units_nearestRank_near (units a - units b)).2
  rw [quotient_of_lt hc h, ofQuotient_lt_neg_tolerance_iff, Nat.not_lt]
  generalize units a - units b = gap at hnear hround ⊢
  generalize units (nearestRank gap 1) = rounded at hround ⊢
  have hgap : 2 * binade * rounded ≤ (2 * binade + 1) * gap := by
    rw [Nat.add_mul, Nat.one_mul]
    exact hround
  have hscale : 0 < 10 ^ 9 * 2 ^ 50 * (2 * binade) := by decide
  refine nearestRank_le (units_pos hc) (Nat.le_of_mul_le_mul_right ?_ hscale)
  calc rounded * unitsPerOne * (10 ^ 9 * 2 ^ 50 * (2 * binade))
      = 2 * binade * rounded * (10 ^ 9 * 2 ^ 50 * unitsPerOne) := by ring
    _ ≤ (2 * binade + 1) * gap * (10 ^ 9 * 2 ^ 50 * unitsPerOne) := Nat.mul_le_mul_right _ hgap
    _ = gap * (10 ^ 9 * 2 ^ 50) * ((2 * binade + 1) * unitsPerOne) := by ring
    _ ≤ units c * (2 ^ 50 - 1) * ((2 * binade + 1) * unitsPerOne) := Nat.mul_le_mul_right _ hnear
    _ = (2 ^ 50 - 1) * (2 * binade + 1) * unitsPerOne * units c := by ring
    _ ≤ units toleranceRank * (10 ^ 9 * 2 ^ 50 * (2 * binade)) * units c :=
        Nat.mul_le_mul_right _ htolerance
    _ = units toleranceRank * units c * (10 ^ 9 * 2 ^ 50 * (2 * binade)) := Nat.mul_right_comm _ _ _

end Bounds

/-- A gap between the bounds and a part of the step, as exact values and as units. -/
theorem part_lt_gap_iff (a b c : Fin rankCount) (k : Nat) :
    (finite false c).toRat / 10 ^ 9 * (k / 2 ^ 50)
        < (finite false a).toRat - (finite false b).toRat ↔
      (units c : Int) * k < ((units a : Int) - units b) * (10 ^ 9 * 2 ^ 50) := by
  have hone : (0 : ℚ) < unitsPerOne := Nat.cast_pos.2 unitsPerOne_pos
  have hpart : (units c : ℚ) / unitsPerOne / 10 ^ 9 * (k / 2 ^ 50) * unitsPerOne
      = units c * k / (10 ^ 9 * 2 ^ 50) := by
    generalize (unitsPerOne : ℚ) = one at hone ⊢
    field_simp
  rw [toRat_unsigned, toRat_unsigned, toRat_unsigned, ← sub_div, lt_div_iff₀ hone, hpart,
    div_lt_iff₀ (by positivity)]
  exact_mod_cast Iff.rfl

/-- What the passes are that were counted beforehand, if they can be. -/
structure CountedPasses (start stop step : Binary64) (turns : List Int) : Prop where
  length_eq : turns.length = passes start stop step
  /-- There is none exactly if the rounded quotient is below the negative tolerance. -/
  eq_nil_iff : turns = [] ↔ (stop - start) / step < -tolerance
  /-- Then the end is below the start. -/
  stop_lt : turns = [] → stop < start
  /-- If the end is below the start, there is at most one. -/
  once : stop < start → turns ≠ [] → turns = [0]
  /-- There is none if the end is below the start by more than a billionth of the step. -/
  far : step.toRat / 10 ^ 9 * ((2 ^ 50 + 1) / 2 ^ 50) < start.toRat - stop.toRat → turns = []
  /-- There is one if the end is not below the start by that much. -/
  near : start.toRat - stop.toRat ≤ step.toRat / 10 ^ 9 * ((2 ^ 50 - 1) / 2 ^ 50) → turns ≠ []

/-- The passes of a loop are numbered from zero, and there are as many as its bounds allow. -/
theorem countedPasses {a b c : Fin rankCount} (hc : c.val ≠ 0)
    (hfits : PassesFit (finite false a) (finite false b) (finite false c)) :
    CountedPasses (finite false a) (finite false b) (finite false c)
      ((List.range (passes (finite false a) (finite false b) (finite false c))).map
        fun i : Nat => (i : Int)) := by
  have hempty := passes_eq_zero_iff hfits
  rw [← List.range_eq_nil, ← List.map_eq_nil_iff] at hempty
  refine ⟨?_, hempty, fun h => ?_, fun h hne => ?_, fun h => ?_, fun h => ?_⟩
  · rw [List.length_map, List.length_range]
  · rw [unsigned_lt_unsigned]
    by_contra hle
    exact not_quotient_lt_of_le hc (Nat.le_of_not_lt hle) (hempty.1 h)
  · rw [passes_eq_one hc (unsigned_lt_unsigned.1 h) fun hlt => hne (hempty.2 hlt)]
    rfl
  · have hpart : (2 ^ 50 + 1 : ℚ) = (2 ^ 50 + 1 : Nat) := by norm_num
    rw [hpart, part_lt_gap_iff] at h
    push_cast at h
    have hlt : units b < units a := by omega
    exact hempty.2 (quotient_lt_of_far hc hlt (by omega))
  · have hpart : (2 ^ 50 - 1 : ℚ) = (2 ^ 50 - 1 : Nat) := by norm_num
    rw [hpart, ← not_lt, part_lt_gap_iff] at h
    push_cast at h
    refine fun hnil => absurd (hempty.1 hnil) ?_
    -- The gap is small, or there is none at all.
    rcases Nat.lt_or_ge (units b) (units a) with hlt | hle
    · exact not_quotient_lt_of_near hc hlt (by omega)
    · exact not_quotient_lt_of_le hc hle

end Script

/-! ## Loops of a program -/

/-- The loop that a statement becomes goes through these values of a range. -/
def Statement.LoopsThrough (s : Statement) (turns : List Int) : Prop :=
  ∃ header suite x arguments, Script.itemsOfStatement s = [.suite header suite] ∧
    Python.LineSays header.text (.head (.forRange x arguments)) ∧
      Python.turns? arguments = some turns

/-- A loop has one list of turns. -/
theorem Statement.LoopsThrough.unique {s : Statement} {turns others : List Int}
    (h : s.LoopsThrough turns) (hothers : s.LoopsThrough others) : turns = others := by
  obtain ⟨header, _, x, arguments, hitems, hsays, hturns⟩ := h
  obtain ⟨header', _, x', arguments', hitems', hsays', hturns'⟩ := hothers
  rw [hitems] at hitems'
  obtain ⟨rfl, -⟩ : header = header' ∧ _ := Script.Item.suite.inj (List.cons.inj hitems').1
  have hline := hsays.read.symm.trans hsays'.read
  cases hline
  exact Option.some_inj.1 (hturns.symm.trans hturns')

section Loops

variable {counter : Variable} {start stop step : Binary64} {body : Block}

theorem Python.int?_numberExpr {x : Binary64} (h : x.isWhole = true) :
    (numberExpr x).int? = some (Primitives.wholePart x : Int) := by
  rw [numberExpr, if_pos h]
  rfl

theorem Primitives.wholePart_mul {rank : Fin rankCount} (h : (finite false rank).isWhole = true) :
    wholePart (finite false rank) * unitsPerOne = units rank :=
  Nat.div_mul_cancel (Nat.dvd_of_mod_eq_zero (isWhole_iff.1 h))

/-- Whole numbers are ordered as their whole parts are. -/
theorem Primitives.wholePart_lt_wholePart {a b : Fin rankCount}
    (ha : (finite false a).isWhole = true) (hb : (finite false b).isWhole = true) :
    wholePart (finite false a) < wholePart (finite false b) ↔ finite false a < finite false b := by
  rw [unsigned_lt_unsigned, ← wholePart_mul ha, ← wholePart_mul hb]
  exact (Nat.mul_lt_mul_right unitsPerOne_pos).symm

/-- A loop that does not count in whole numbers runs through the numbers of its passes. -/
theorem Statement.loopsThrough_passes (h : Script.countsWhole start stop step = false) :
    (Statement.forLoop counter start stop step body).LoopsThrough
      ((List.range (Script.passes start stop step)).map fun i : Nat => (i : Int)) := by
  have hitems : Script.itemsOfStatement (.forLoop counter start stop step body)
      = [.suite (.forPasses (Script.passes start stop step))
        (.line (Script.placement counter.name start step) :: Script.itemsOfBlock body)] := by
    rw [Script.itemsOfStatement, h]
    rfl
  exact ⟨_, _, _, _, hitems, Script.Header.says_forPasses _, Python.range_count _⟩

/-- A loop in whole numbers runs through a range, which is empty exactly if it ends
below its start. -/
theorem Statement.loopsThrough_range (h : Script.countsWhole start stop step = true)
    (hwf : (Statement.forLoop counter start stop step body).WellFormed .source) :
    ∃ turns, (Statement.forLoop counter start stop step body).LoopsThrough turns ∧
      (turns = [] ↔ stop < start) := by
  have hitems : Script.itemsOfStatement (.forLoop counter start stop step body)
      = [.suite (.forRange counter.name start stop step) (Script.suiteOfBlock body)] := by
    rw [Script.itemsOfStatement, h]
    rfl
  simp only [Script.countsWhole, Bool.and_eq_true] at h
  obtain ⟨⟨hstart, hstop⟩, hstep⟩ := h
  obtain ⟨hcounter, ⟨a, rfl⟩, ⟨b, rfl⟩, ⟨c, rfl⟩, hzero, -⟩ := Statement.wellFormed_forLoop.1 hwf
  have hpositive : 0 < (Primitives.wholePart (finite false c) : Int) := by
    rw [Int.natCast_pos, Nat.pos_iff_ne_zero]
    intro hnone
    have hunits := Primitives.wholePart_mul hstep
    rw [hnone, Nat.zero_mul] at hunits
    exact absurd hunits.symm (units_pos (of_decide_eq_false hzero)).ne'
  obtain ⟨turns, hturns, -⟩ : ∃ turns, Python.range (Primitives.wholePart (finite false a))
      (Primitives.wholePart (finite false b) + 1) (Primitives.wholePart (finite false c))
        = some turns ∧ _ :=
    Python.exists_range hpositive
  refine ⟨turns,
    ⟨_, _, _, _, hitems, Script.Header.says_forRange hcounter ⟨a, rfl⟩ ⟨b, rfl⟩ ⟨c, rfl⟩, ?_⟩, ?_⟩
  · rw [← hturns, Python.turns?]
    simp only [List.mapM_cons, List.mapM_nil, Python.Expr.int?, Python.int?_numberExpr hstart,
      Python.int?_numberExpr hstop, Python.int?_numberExpr hstep]
    rfl
  · -- The end is included, so the range goes on to the end plus one.
    rw [← Option.some_inj, ← hturns, Python.range_eq_nil_iff hpositive,
      ← Primitives.wholePart_lt_wholePart hstop hstart]
    omega

end Loops

/-- A counting loop of a program that was read. If it counts in whole numbers, it makes no pass
exactly if its end is below its start. If not, and if its passes are fewer than `2 ^ 64`, it makes
none exactly if the rounded quotient is below the negative tolerance: then its end is below its
start, but an end that is only just below gives one pass. -/
theorem Reading.forLoop_idle_iff {source : String} {p : Program}
    (h : (ofTokens (Token.ofSource source)).program = some p)
    {counter : Variable} {start stop step : Binary64} {body : Block}
    (hmem : Statement.forLoop counter start stop step body ∈ p.statements) :
    ∃ turns, (Statement.forLoop counter start stop step body).LoopsThrough turns ∧
      (Script.countsWhole start stop step = true → (turns = [] ↔ stop < start)) ∧
      (Script.countsWhole start stop step = false → Script.PassesFit start stop step →
        Script.CountedPasses start stop step turns) := by
  have hwf := Block.inner_wellFormed p.body (Program.wellFormed_source h).body _ hmem
  cases hwhole : Script.countsWhole start stop step with
  | true =>
    obtain ⟨turns, hturns, hidle⟩ := Statement.loopsThrough_range hwhole hwf
    exact ⟨turns, hturns, fun _ => hidle, nofun⟩
  | false =>
    obtain ⟨-, ⟨a, rfl⟩, ⟨b, rfl⟩, ⟨c, rfl⟩, hzero, -⟩ := Statement.wellFormed_forLoop.1 hwf
    exact ⟨_, Statement.loopsThrough_passes hwhole, nofun,
      fun _ hfits => Script.countedPasses (of_decide_eq_false hzero) hfits⟩

/-- The statement is a counting loop whose start, end and step pass a test. -/
def Statement.loops (test : Binary64 → Binary64 → Binary64 → Bool) : Statement → Bool
  | .forLoop _ start stop step _ => test start stop step
  | _ => false

/-- A loop that passes a test can be found in the program. -/
theorem Reading.exists_forLoop {ts : List Token} {test : Binary64 → Binary64 → Binary64 → Bool}
    (h : (ofTokens ts).program.any (fun p => p.statements.any (Statement.loops test)) = true) :
    ∃ p counter start stop step body, (ofTokens ts).program = some p ∧
      Statement.forLoop counter start stop step body ∈ p.statements ∧
        test start stop step = true := by
  obtain ⟨p, hp, hany⟩ := (Option.any_eq_true _ _).1 h
  obtain ⟨s, hmem, hloops⟩ := List.any_eq_true.1 hany
  cases s with
  | forLoop counter start stop step body =>
    exact ⟨p, counter, start, stop, step, body, hp, hmem, hloops⟩
  | _ => exact absurd hloops Bool.false_ne_true

/-- A loop in whole numbers, in a loop with fractions: both end below their start. -/
def idleLoopsSource : String :=
  String.join ["PROG idling FOR X ", "FROM 2.5 TO 0 BY 0.5 ", "DO FOR Y FROM 9 ", "TO 4 BY 2 DO ",
    "OUT[X Y]: ENDDO ENDFOR ", "ENDDO ENDFOR ENDPROG"]

theorem idleLoopsSource_idle :
    (∃ p counter start stop step body,
      (Reading.ofTokens (Token.ofSource idleLoopsSource)).program = some p ∧
      Statement.forLoop counter start stop step body ∈ p.statements ∧
      Script.countsWhole start stop step = true ∧ stop < start ∧
      (Statement.forLoop counter start stop step body).LoopsThrough []) ∧
    ∃ p counter start stop step body,
      (Reading.ofTokens (Token.ofSource idleLoopsSource)).program = some p ∧
      Statement.forLoop counter start stop step body ∈ p.statements ∧
      Script.countsWhole start stop step = false ∧ Script.PassesFit start stop step ∧
      (stop - start) / step < -Script.tolerance ∧
      (Statement.forLoop counter start stop step body).LoopsThrough [] := by
  have hread : (Reading.ofTokens (Token.ofSource idleLoopsSource)).program.any
      (fun p => p.statements.any (Statement.loops fun start stop step =>
        Script.countsWhole start stop step && decide (stop < start))) = true ∧
      (Reading.ofTokens (Token.ofSource idleLoopsSource)).program.any (fun p => p.statements.any
        (Statement.loops fun start stop step => !Script.countsWhole start stop step &&
          decide (Script.PassesFit start stop step) &&
          decide ((stop - start) / step < -Script.tolerance))) = true := by
    rw [idleLoopsSource, Token.ofSource_join]
    decide +kernel
  constructor
  · obtain ⟨p, counter, start, stop, step, body, hp, hmem, htest⟩ := Reading.exists_forLoop hread.1
    rw [Bool.and_eq_true, decide_eq_true_eq] at htest
    obtain ⟨turns, hturns, hidle, -⟩ := Reading.forLoop_idle_iff hp hmem
    obtain rfl := (hidle htest.1).2 htest.2
    exact ⟨p, counter, start, stop, step, body, hp, hmem, htest.1, htest.2, hturns⟩
  · obtain ⟨p, counter, start, stop, step, body, hp, hmem, htest⟩ := Reading.exists_forLoop hread.2
    simp only [Bool.and_eq_true, Bool.not_eq_true', decide_eq_true_eq] at htest
    obtain ⟨⟨hwhole, hfits⟩, hlt⟩ := htest
    obtain ⟨turns, hturns, -, hcounted⟩ := Reading.forLoop_idle_iff hp hmem
    obtain rfl := (hcounted hwhole hfits).eq_nil_iff.2 hlt
    exact ⟨p, counter, start, stop, step, body, hp, hmem, hwhole, hfits, hlt, hturns⟩

/-- A loop that ends below its start, by less than a billionth of its step. -/
def overshootingLoopSource : String :=
  String.join ["PROG p FOR A FROM 1 ", "TO 0.5 BY 1000000000 ", "DO OUT[A]: ENDDO ",
    "ENDFOR ENDPROG"]

theorem overshootingLoopSource_loops_once :
    ∃ p counter start stop step body,
      (Reading.ofTokens (Token.ofSource overshootingLoopSource)).program = some p ∧
      Statement.forLoop counter start stop step body ∈ p.statements ∧ stop < start ∧
      Script.passes start stop step = 1 ∧
      (Statement.forLoop counter start stop step body).LoopsThrough [0] ∧
      ¬ (Statement.forLoop counter start stop step body).LoopsThrough [] := by
  have hread : (Reading.ofTokens (Token.ofSource overshootingLoopSource)).program.any (fun p =>
      p.statements.any (Statement.loops fun start stop step => decide (stop < start) &&
        !Script.countsWhole start stop step && Script.passes start stop step == 1)) = true := by
    rw [overshootingLoopSource, Token.ofSource_join]
    decide +kernel
  obtain ⟨p, counter, start, stop, step, body, hp, hmem, htest⟩ := Reading.exists_forLoop hread
  simp only [Bool.and_eq_true, decide_eq_true_eq, Bool.not_eq_true', beq_iff_eq] at htest
  obtain ⟨⟨hlt, hwhole⟩, hpasses⟩ := htest
  have hturns : (Statement.forLoop counter start stop step body).LoopsThrough _ :=
    Statement.loopsThrough_passes hwhole
  rw [hpasses] at hturns
  exact ⟨p, counter, start, stop, step, body, hp, hmem, hlt, hpasses, hturns,
    fun hnone => absurd (hturns.unique hnone) (List.cons_ne_nil _ _)⟩

end Zed
