import Mathlib.Order.Monotone.Basic
import Mathlib.Tactic.Linarith
import Mathlib.Tactic.Ring
import Zed.Number.Shortest

/-!
# Rounding to the nearest rank

`nearestRank num den` is computed by counting binary digits. Here it is characterised by what it
means: the magnitude with that rank is nearest to `num / den` units, and of two equally near ones it
has the even rank (`nearest_nearestRank`). No other rank is nearest (`Nearest.unique`).

A rank is written `e * binade + m`, the *place* `m` in steps of `2 ^ e` units. Apart from the first
binade `m` lies in the upper half of `0 … 2 * binade`. The upper end is allowed, so that a place and
its successor always share their `e`; this is what makes a carry harmless.
-/

set_option autoImplicit false

namespace Zed.Binary64

/-! ## Places -/

theorem two_pow_pos (e : Nat) : 0 < Nat.pow 2 e :=
  Nat.pow_pos (by decide)

/-- The magnitude of a place. -/
theorem units_place {e m : Nat} (hlow : e = 0 ∨ binade ≤ m) (hhigh : m ≤ 2 * binade) :
    units (e * binade + m) = m * Nat.pow 2 e := by
  unfold units
  by_cases hm : m < binade
  · have he : e = 0 := by omega
    subst he
    rw [if_pos (by omega)]
    simp
  · rw [if_neg (by omega)]
    obtain rfl | hlt := Nat.eq_or_lt_of_le hhigh
    · -- the upper end of a binade is the beginning of the next one
      have hdiv : (e * binade + 2 * binade) / binade = e + 2 := by
        rw [← Nat.add_mul]
        exact Nat.mul_div_cancel _ (by decide)
      have hmod : (e * binade + 2 * binade) % binade = 0 := by
        rw [← Nat.add_mul]
        exact Nat.mul_mod_left _ _
      rw [hdiv, hmod, show e + 2 - 1 = e + 1 by omega, Nat.add_zero,
        show Nat.pow 2 (e + 1) = Nat.pow 2 e * 2 from rfl]
      ring
    · have hsplit : e * binade + m = (m - binade) + binade * (e + 1) := by
        rw [Nat.mul_add, Nat.mul_comm binade e]
        omega
      have hdiv : (e * binade + m) / binade = e + 1 := by
        rw [hsplit, Nat.add_mul_div_left _ _ (by decide), Nat.div_eq_of_lt (by omega), Nat.zero_add]
      have hmod : (e * binade + m) % binade = m - binade := by
        rw [hsplit, Nat.add_mul_mod_self_left, Nat.mod_eq_of_lt (by omega)]
      rw [hdiv, hmod, Nat.add_sub_cancel, Nat.add_sub_cancel' (by omega)]

/-- Every rank has a place below the upper end. -/
theorem exists_place (rank : Nat) :
    ∃ e m, rank = e * binade + m ∧ (e = 0 ∨ binade ≤ m) ∧ m < 2 * binade := by
  have hdiv := Nat.div_add_mod rank binade
  have hmod := Nat.mod_lt rank (show 0 < binade by decide)
  cases hq : rank / binade with
  | zero =>
    rw [hq] at hdiv
    exact ⟨0, rank, by omega, .inl rfl, by omega⟩
  | succ e =>
    rw [hq, Nat.mul_add, Nat.mul_comm] at hdiv
    exact ⟨e, binade + rank % binade, by omega, .inr (by omega), by omega⟩

theorem units_lt_units_succ (rank : Nat) : units rank < units (rank + 1) := by
  obtain ⟨e, m, rfl, hlow, hhigh⟩ := exists_place rank
  rw [Nat.add_assoc, units_place hlow (by omega), units_place (by omega) (by omega)]
  exact Nat.mul_lt_mul_of_pos_right (by omega) (two_pow_pos e)

theorem units_strictMono : StrictMono units :=
  strictMono_nat_of_lt_succ units_lt_units_succ

/-! ## Nearest ranks -/

/-- The quotient `num / den` lies between the middles of the gaps below and above the magnitude, or
on one of them if the rank is even. -/
def Nearest (num den rank : Nat) : Prop :=
  if rank % 2 = 0 then
    (units (rank - 1) + units rank) * den ≤ 2 * num ∧
      2 * num ≤ (units rank + units (rank + 1)) * den
  else
    (units (rank - 1) + units rank) * den < 2 * num ∧
      2 * num < (units rank + units (rank + 1)) * den

theorem Nearest.low {num den rank : Nat} (h : Nearest num den rank) :
    (units (rank - 1) + units rank) * den ≤ 2 * num := by
  unfold Nearest at h
  split at h
  · exact h.1
  · exact h.1.le

theorem Nearest.high {num den rank : Nat} (h : Nearest num den rank) :
    2 * num ≤ (units rank + units (rank + 1)) * den := by
  unfold Nearest at h
  split at h
  · exact h.2
  · exact h.2.le

/-- Only zero is nearest to zero. -/
theorem Nearest.units_eq_zero {den rank : Nat} (h : Nearest 0 den rank) (hden : 0 < den) :
    units rank = 0 := by
  have hlow := h.low
  rw [Nat.mul_zero, Nat.le_zero, Nat.mul_eq_zero] at hlow
  omega

/-- Between two ranks there is a middle, and only an even rank may lie on it. -/
theorem Nearest.not_lt {num den r s : Nat} (hden : 0 < den) (hr : Nearest num den r)
    (hs : Nearest num den s) : ¬ r < s := by
  intro hlt
  have hmid : (units r + units (r + 1)) * den ≤ (units (s - 1) + units s) * den := by
    apply Nat.mul_le_mul_right
    exact Nat.add_le_add (units_strictMono.monotone (by omega))
      (units_strictMono.monotone (by omega))
  have hbelow := hr.high
  have habove := hs.low
  -- so both middles are the point itself, and the two ranks are neighbours
  have hsame : units r + units (r + 1) = units (s - 1) + units s :=
    Nat.eq_of_mul_eq_mul_right hden (by omega)
  have hnext : s = r + 1 := by
    by_contra hne
    have h₁ : units r < units (s - 1) := units_strictMono (by omega)
    have h₂ : units (r + 1) ≤ units s := units_strictMono.monotone (by omega)
    omega
  unfold Nearest at hr hs
  split at hr
  · rw [if_neg (by omega)] at hs
    omega
  · omega

theorem Nearest.unique {num den r s : Nat} (hden : 0 < den) (hr : Nearest num den r)
    (hs : Nearest num den s) : r = s :=
  Nat.le_antisymm (Nat.le_of_not_lt (hs.not_lt hden hr)) (Nat.le_of_not_lt (hr.not_lt hden hs))

/-! ## The computed rank -/

/-- Rounding to a whole number is off by at most a half, and by less if the result is odd. -/
theorem roundHalfEven_spec (num : Nat) {den : Nat} (hden : 0 < den) :
    2 * (roundHalfEven num den * den) ≤ 2 * num + den ∧
      2 * num ≤ 2 * (roundHalfEven num den * den) + den ∧
      (roundHalfEven num den % 2 = 1 →
        2 * (roundHalfEven num den * den) < 2 * num + den ∧
          2 * num < 2 * (roundHalfEven num den * den) + den) := by
  have hdiv := Nat.div_add_mod num den
  have hmod := Nat.mod_lt num hden
  rw [Nat.mul_comm] at hdiv
  have hsucc : (num / den + 1) * den = num / den * den + den := Nat.succ_mul _ _
  unfold roundHalfEven
  dsimp only
  split
  · omega
  split
  · omega
  split
  · omega
  · omega

theorem roundHalfEven_eq_or (num den : Nat) :
    roundHalfEven num den = num / den ∨ roundHalfEven num den = num / den + 1 := by
  unfold roundHalfEven
  dsimp only
  split
  · exact .inl rfl
  split
  · exact .inr rfl
  split
  · exact .inl rfl
  · exact .inr rfl

theorem le_roundHalfEven {num den bound : Nat} (hden : 0 < den) (h : bound * den ≤ num) :
    bound ≤ roundHalfEven num den := by
  have hle : bound ≤ num / den := (Nat.le_div_iff_mul_le hden).2 h
  have := roundHalfEven_eq_or num den
  omega

theorem roundHalfEven_le {num den bound : Nat} (hden : 0 < den) (h : num < bound * den) :
    roundHalfEven num den ≤ bound := by
  have hlt : num / den < bound := (Nat.div_lt_iff_lt_mul hden).2 h
  have := roundHalfEven_eq_or num den
  omega

/-- A whole quotient is not rounded at all. -/
theorem roundHalfEven_of_dvd {num den : Nat} (hden : 0 < den) (h : den ∣ num) :
    roundHalfEven num den = num / den := by
  unfold roundHalfEven
  dsimp only
  rw [Nat.mod_eq_zero_of_dvd h, if_pos (by omega)]

/-- The computed rank by its place: the quotient rounded to a whole number of steps. Unless the
steps are single units, the quotient is at least `binade` steps. -/
theorem nearestRank_eq_place (num : Nat) {den : Nat} (hden : 0 < den) :
    ∃ e, nearestRank num den = e * binade + roundHalfEven num (den * Nat.pow 2 e) ∧
      (e = 0 ∨ binade * (den * Nat.pow 2 e) ≤ num) ∧ num < 2 * binade * (den * Nat.pow 2 e) := by
  refine ⟨(num / den).log2 - 52, rfl, ?_, ?_⟩
  · by_cases hlog : (num / den).log2 ≤ 52
    · exact .inl (by omega)
    · right
      have hne : num / den ≠ 0 := by
        intro h
        rw [h] at hlog
        exact hlog (by decide)
      have hle : 2 ^ (52 + ((num / den).log2 - 52)) ≤ num / den := by
        rw [show 52 + ((num / den).log2 - 52) = (num / den).log2 by omega]
        exact Nat.log2_self_le hne
      rw [Nat.pow_add] at hle
      have := (Nat.le_div_iff_mul_le hden).1 hle
      calc binade * (den * Nat.pow 2 ((num / den).log2 - 52))
          = 2 ^ 52 * 2 ^ ((num / den).log2 - 52) * den := by
            rw [Nat.pow_eq, show binade = 2 ^ 52 from rfl]
            ring
        _ ≤ num := this
  · have hlt : num / den < 2 ^ (53 + ((num / den).log2 - 52)) := by
      apply Nat.lt_of_lt_of_le Nat.lt_log2_self
      exact Nat.pow_le_pow_right (by decide) (by omega)
    rw [Nat.pow_add] at hlt
    have := (Nat.div_lt_iff_lt_mul hden).1 hlt
    calc num < 2 ^ 53 * 2 ^ ((num / den).log2 - 52) * den := this
      _ = 2 * binade * (den * Nat.pow 2 ((num / den).log2 - 52)) := by
          rw [Nat.pow_eq, show binade = 2 ^ 52 from rfl]
          ring

/-- The next rank is at least one step away. -/
theorem step_le_units_succ {e m : Nat} (hlow : e = 0 ∨ binade ≤ m) (hhigh : m ≤ 2 * binade) :
    (m + 1) * Nat.pow 2 e ≤ units (e * binade + m + 1) := by
  obtain hlt | rfl := Nat.lt_or_eq_of_le hhigh
  · rw [Nat.add_assoc, units_place (by omega) (by omega)]
  · have hnext : e * binade + 2 * binade + 1 = (e + 1) * binade + (binade + 1) := by
      rw [Nat.succ_mul e]
      omega
    rw [hnext, units_place (.inr (Nat.le_succ _)) (by decide),
      show Nat.pow 2 (e + 1) = Nat.pow 2 e * 2 from rfl, ← Nat.mul_assoc, Nat.mul_right_comm]
    exact Nat.mul_le_mul_right _ (by decide)

/-- Inside a binade the rank before is one step away. -/
theorem units_pred_place {e m : Nat} (hlow : e = 0 ∨ binade < m) (hhigh : m ≤ 2 * binade)
    (hpos : 0 < m) : units (e * binade + m - 1) = (m - 1) * Nat.pow 2 e := by
  rw [Nat.add_sub_assoc hpos, units_place (by omega) (by omega)]

/-- A number of steps, in the denominator's parts of a unit. -/
theorem steps_mul (k e den : Nat) : k * Nat.pow 2 e * den = k * (den * Nat.pow 2 e) := by
  ring

/-- Half a step above a magnitude is not beyond the middle of the gap above it. -/
theorem half_step_le_middle {e m : Nat} (den : Nat) (hlow : e = 0 ∨ binade ≤ m)
    (hhigh : m ≤ 2 * binade) :
    2 * (m * (den * Nat.pow 2 e)) + den * Nat.pow 2 e ≤
      (units (e * binade + m) + units (e * binade + m + 1)) * den := by
  have hnext := Nat.mul_le_mul_right den (step_le_units_succ hlow hhigh)
  rw [steps_mul, Nat.succ_mul] at hnext
  rw [Nat.add_mul, units_place hlow hhigh, steps_mul]
  omega

/-- Inside a binade half a step below a magnitude is the middle of the gap below it. -/
theorem middle_pred_place {e m : Nat} (den : Nat) (hlow : e = 0 ∨ binade < m)
    (hhigh : m ≤ 2 * binade) (hpos : 0 < m) :
    (units (e * binade + m - 1) + units (e * binade + m)) * den + den * Nat.pow 2 e =
      2 * (m * (den * Nat.pow 2 e)) := by
  have hone : den * Nat.pow 2 e ≤ m * (den * Nat.pow 2 e) := Nat.le_mul_of_pos_left _ hpos
  rw [Nat.add_mul, units_pred_place hlow hhigh hpos, units_place (by omega) hhigh,
    steps_mul, steps_mul, Nat.sub_mul, Nat.one_mul]
  omega

/-- Nowhere is that middle above the magnitude. -/
theorem middle_pred_le {e m : Nat} (den : Nat) (hlow : e = 0 ∨ binade ≤ m)
    (hhigh : m ≤ 2 * binade) :
    (units (e * binade + m - 1) + units (e * binade + m)) * den
      ≤ 2 * (m * (den * Nat.pow 2 e)) := by
  have hpred := Nat.mul_le_mul_right den
    (units_strictMono.monotone (Nat.sub_le (e * binade + m) 1))
  rw [units_place hlow hhigh, steps_mul] at hpred
  rw [Nat.add_mul, units_place hlow hhigh, steps_mul]
  omega

theorem place_mod_two (e m : Nat) : (e * binade + m) % 2 = m % 2 := by
  have hbinade : binade = Nat.pow 2 51 * 2 := rfl
  rw [show e * binade = 2 * (e * Nat.pow 2 51) by rw [hbinade]; ring]
  omega

/-- The computed rank is nearest. -/
theorem nearest_nearestRank (num : Nat) {den : Nat} (hden : 0 < den) :
    Nearest num den (nearestRank num den) := by
  obtain ⟨e, hrank, hlow, hhigh⟩ := nearestRank_eq_place num hden
  have hstep : 0 < den * Nat.pow 2 e := Nat.mul_pos hden (two_pow_pos e)
  obtain ⟨hspecLow, hspecHigh, hspecOdd⟩ := roundHalfEven_spec num hstep
  have hplace : e = 0 ∨ binade ≤ roundHalfEven num (den * Nat.pow 2 e) :=
    hlow.imp_right (le_roundHalfEven hstep)
  have htop := roundHalfEven_le hstep hhigh
  rw [hrank]
  generalize roundHalfEven num (den * Nat.pow 2 e) = m at *
  have habove := half_step_le_middle den hplace htop
  have hbelow : (units (e * binade + m - 1) + units (e * binade + m)) * den ≤ 2 * num ∧
      (m % 2 = 1 → (units (e * binade + m - 1) + units (e * binade + m)) * den < 2 * num) := by
    by_cases hinside : (e = 0 ∨ binade < m) ∧ 0 < m
    · have := middle_pred_place den hinside.1 htop hinside.2
      omega
    · -- the gap below is narrower here, but at the beginning of a binade nothing was rounded up
      have hmiddle := middle_pred_le den hplace htop
      have hbegin : m = 0 ∨ m = binade := by omega
      obtain rfl | rfl := hbegin
      · omega
      · have hbinade : 0 < binade ∧ binade % 2 = 0 := by decide
        omega
  unfold Nearest
  rw [place_mod_two]
  split
  · exact ⟨hbelow.1, by omega⟩
  · have hodd : m % 2 = 1 := by omega
    have := hspecOdd hodd
    exact ⟨hbelow.2 hodd, by omega⟩

/-- A rank that is nearest is the computed one. -/
theorem nearestRank_eq_of_nearest {num den rank : Nat} (hden : 0 < den) (h : Nearest num den rank) :
    nearestRank num den = rank :=
  (nearest_nearestRank num hden).unique hden h

end Zed.Binary64
