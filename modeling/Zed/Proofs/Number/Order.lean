import Mathlib.Algebra.Order.Field.Rat
import Zed.Number.Arithmetic
import Zed.Proofs.Number.Rounding

/-!
# Order and exact values

How numbers compare, what they are worth exactly, and how rounding sits between the two. Rounding
never steps over a magnitude: what is not below a magnitude is not rounded below it, and in the same
way from above (`le_nearestRank`, `nearestRank_le`). It moves a whole number of units by at most a
part in `2 ^ 53` of it (`units_nearestRank_near`).
-/

set_option autoImplicit false

namespace Zed.Binary64

/-! ## Comparison -/

/-- The first number is below the second. What is not a number is neither below
nor above another. -/
def isBelow : Binary64 → Binary64 → Bool
  | .finite s a, .finite t b => signedUnits s a < signedUnits t b
  | .finite _ _, .infinite t => !t
  | .infinite s, .finite _ _ => s
  | .infinite s, .infinite t => s && !t
  | _, _ => false

instance : LT Binary64 :=
  ⟨fun x y => isBelow x y = true⟩

instance (x y : Binary64) : Decidable (x < y) :=
  inferInstanceAs (Decidable (isBelow x y = true))

/-- Finite numbers are ordered as their signed units are. -/
theorem finite_lt_finite {s t : Bool} {a b : Fin rankCount} :
    finite s a < finite t b ↔ signedUnits s a < signedUnits t b :=
  decide_eq_true_iff

theorem infinite_lt_finite {s t : Bool} {b : Fin rankCount} : infinite s < finite t b ↔ s = true :=
  Iff.rfl

/-- What is not a number is below nothing. -/
theorem not_nan_lt (x : Binary64) : ¬ nan < x :=
  Bool.false_ne_true

/-- Numbers without a sign compare as their magnitudes do. -/
theorem unsigned_lt_unsigned {a b : Fin rankCount} :
    finite false a < finite false b ↔ units a < units b := by
  rw [finite_lt_finite]
  exact Int.ofNat_lt

theorem units_lt_units {r s : Nat} : units r < units s ↔ r < s :=
  units_strictMono.lt_iff_lt

theorem units_pos {rank : Nat} (h : rank ≠ 0) : 0 < units rank :=
  Nat.zero_lt_of_lt (units_strictMono (Nat.pos_of_ne_zero h))

/-! ## Exact values -/

/-- The exact value of a finite number. -/
def toRat : Binary64 → ℚ
  | .finite s a => signedUnits s a / unitsPerOne
  | _ => 0

theorem toRat_unsigned (a : Fin rankCount) :
    (finite false a).toRat = (units a : ℚ) / unitsPerOne := rfl

/-! ## Rounding and magnitudes -/

/-- A number that is not above a quotient is not above the one nearest to it. -/
theorem le_nearestRank {num den rank : Nat} (hden : 0 < den) (h : units rank * den ≤ num) :
    rank ≤ nearestRank num den := by
  by_contra hlt
  have hhigh := (nearest_nearestRank num hden).high
  generalize nearestRank num den = found at hlt hhigh
  -- The next magnitude above the one that was found is not above the given one.
  have hfound := Nat.mul_lt_mul_of_pos_right (units_strictMono (show found < rank by omega)) hden
  have hnext :=
    Nat.mul_le_mul_right den (units_strictMono.monotone (show found + 1 ≤ rank by omega))
  rw [Nat.add_mul] at hhigh
  omega

/-- A number that is not below a quotient is not below the one nearest to it. -/
theorem nearestRank_le {num den rank : Nat} (hden : 0 < den) (h : num ≤ units rank * den) :
    nearestRank num den ≤ rank := by
  by_contra hlt
  have hlow := (nearest_nearestRank num hden).low
  generalize nearestRank num den = found at hlt hlow
  have hfound := Nat.mul_lt_mul_of_pos_right (units_strictMono (show rank < found by omega)) hden
  have hprevious :=
    Nat.mul_le_mul_right den (units_strictMono.monotone (show rank ≤ found - 1 by omega))
  rw [Nat.add_mul] at hlow
  omega

/-- If a quotient is rounded to a magnitude, so is every one between the two. -/
theorem Nearest.of_between {num other den rank : Nat} (hden : 0 < den) (h : Nearest num den rank)
    (hbetween : units rank * den ≤ other ∧ other ≤ num ∨ num ≤ other ∧ other ≤ units rank * den) :
    Nearest other den rank := by
  -- One bound is that of the quotient, the other one lies behind the magnitude.
  have hnext := Nat.mul_lt_mul_of_pos_right (units_lt_units_succ rank) hden
  unfold Nearest at h ⊢
  rw [Nat.add_mul, Nat.add_mul] at h ⊢
  split
  · next heven =>
    have hprevious := Nat.mul_le_mul_right den (units_strictMono.monotone (Nat.sub_le rank 1))
    rw [if_pos heven] at h
    omega
  · next hodd =>
    have hprevious :=
      Nat.mul_lt_mul_of_pos_right (units_strictMono (show rank - 1 < rank by omega)) hden
    rw [if_neg hodd] at h
    omega

/-- A whole number of units other than zero is not rounded to zero. -/
theorem nearestRank_ne_zero {num : Nat} (h : num ≠ 0) : nearestRank num 1 ≠ 0 := by
  have hone : units 1 * 1 ≤ num := Nat.one_le_iff_ne_zero.2 h
  exact Nat.one_le_iff_ne_zero.1 (le_nearestRank Nat.one_pos hone)

/-- Rounding moves a whole number of units by at most a part in `2 ^ 53` of it. -/
theorem units_nearestRank_near (num : Nat) :
    2 * binade * num ≤ 2 * binade * units (nearestRank num 1) + num ∧
      2 * binade * units (nearestRank num 1) ≤ 2 * binade * num + num := by
  obtain ⟨e, hplace, hlow, hhigh⟩ := nearestRank_eq_place num Nat.one_pos
  rw [Nat.one_mul] at hplace hlow hhigh
  have hstep := two_pow_pos e
  have hunits :=
    units_place (hlow.imp_right (le_roundHalfEven hstep)) (roundHalfEven_le hstep hhigh)
  rw [← hplace] at hunits
  obtain rfl | hlow := hlow
  · -- Single units are not rounded.
    have hexact : units (nearestRank num 1) = num := by
      rw [hunits, roundHalfEven_of_dvd hstep (one_dvd num)]
      exact Nat.div_mul_cancel (one_dvd num)
    rw [hexact]
    omega
  · obtain ⟨hbelow, habove, -⟩ := roundHalfEven_spec num hstep
    rw [← hunits] at hbelow habove
    have hhalf : ∀ n, 2 * binade * n = binade * (2 * n) := fun n => by ring
    rw [hhalf, hhalf]
    have hbelow := Nat.mul_le_mul_left binade hbelow
    have habove := Nat.mul_le_mul_left binade habove
    rw [Nat.mul_add] at hbelow habove
    omega

/-! ## Rounded results -/

/-- A quotient is rounded to the number nearest to it, or to infinity if it is out of range. -/
theorem ofQuotient_cases (s : Bool) (num den : Nat) :
    (∃ rank : Fin rankCount, ofQuotient s num den = .finite s rank ∧
      rank.val = nearestRank num den) ∨
      ofQuotient s num den = .infinite s ∧ rankCount ≤ nearestRank num den := by
  unfold ofQuotient
  dsimp only
  split
  · next hlt => exact .inl ⟨_, rfl, rfl⟩
  · next hge => exact .inr ⟨rfl, Nat.le_of_not_lt hge⟩

/-- The difference of two numbers without a sign. -/
theorem sub_unsigned (a b : Fin rankCount) : finite false b - finite false a
    = if (units b : Int) - units a = 0 then zero false
      else ofQuotient ((units b : Int) - units a < 0) ((units b : Int) - units a).natAbs 1 := rfl

/-- A difference of magnitudes is never rounded up to infinity. -/
theorem exists_sub_of_lt {a b : Fin rankCount} (h : units b < units a) :
    ∃ rank : Fin rankCount, finite false b - finite false a = .finite true rank ∧
      rank.val = nearestRank (units a - units b) 1 := by
  have hgap : ((units b : Int) - units a).natAbs = units a - units b := by omega
  rw [sub_unsigned, if_neg (by omega), hgap, decide_eq_true (by omega)]
  rcases ofQuotient_cases true (units a - units b) 1 with hfinite | ⟨-, hlarge⟩
  · exact hfinite
  · -- The difference is at most the minuend, which has a rank.
    have hle : nearestRank (units a - units b) 1 ≤ a := nearestRank_le Nat.one_pos (by omega)
    have hlt := a.isLt
    omega

theorem div_unsigned {s : Bool} {r c : Fin rankCount} (hc : c.val ≠ 0) :
    finite s r / finite false c = ofQuotient s (units r * unitsPerOne) (units c) := by
  show (if _ then _ else ofQuotient (s != false) _ _) = _
  rw [if_neg hc, Bool.bne_false]

end Zed.Binary64
