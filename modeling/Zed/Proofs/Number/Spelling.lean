import Mathlib.Data.List.TakeWhile
import Zed.Number.Decimal
import Zed.Proofs.Number.Rounding
import Zed.Script.Literal

/-!
# Number literals read back

A script spells a finite number by the shortest decimal that rounds to it. Two facts say what such a
spelling denotes.

* A whole number is spelled exactly, by its digits alone (`shortest_of_whole`).
* Any other number is spelled with a point and at least one digit on each side of it
  (`shortest_places_pos`), and read as a numeral it is that number again (`toBinary64_positional`).

The second one rests on the characterisation of rounding: the decimal was chosen because the rank is
nearest to it, and no other rank is.
-/

set_option autoImplicit false

namespace Zed.Binary64

theorem unitsPerOne_pos : 0 < unitsPerOne := by
  unfold unitsPerOne
  exact two_pow_pos _

/-- Steps of at least one are whole, and smaller ones divide one. -/
theorem dvd_unitsPerOne_or (e : Nat) : unitsPerOne ∣ Nat.pow 2 e ∨ Nat.pow 2 e ∣ unitsPerOne := by
  unfold unitsPerOne
  rw [Nat.pow_eq, Nat.pow_eq]
  exact (Nat.le_total 1074 e).imp (Nat.pow_dvd_pow 2) (Nat.pow_dvd_pow 2)

theorem ten_pow_pos (k : Nat) : 0 < Nat.pow 10 k :=
  Nat.pow_pos (by decide)

/-! ## The chosen decimal -/

/-- The test that chooses a decimal is that the rank is nearest to it. -/
theorem isNearest_iff {rank coefficient places : Nat} :
    isNearest rank coefficient places = true ↔
      Nearest (coefficient * unitsPerOne) (Nat.pow 10 places) rank := by
  have hpoint : coefficient * (2 * unitsPerOne) = 2 * (coefficient * unitsPerOne) := by ring
  unfold isNearest Nearest
  dsimp only
  rw [hpoint]
  split <;> simp

/-- A decimal that is equal to a magnitude rounds to it. -/
theorem isNearest_of_eq {rank coefficient places : Nat}
    (h : units rank * Nat.pow 10 places = coefficient * unitsPerOne) :
    isNearest rank coefficient places = true := by
  rw [isNearest_iff]
  have hten := ten_pow_pos places
  have hnext := Nat.mul_lt_mul_of_pos_right (units_lt_units_succ rank) hten
  unfold Nearest
  rw [Nat.add_mul, Nat.add_mul]
  split
  case isTrue heven =>
    have hprev := Nat.mul_le_mul_right (Nat.pow 10 places)
      (units_strictMono.monotone (Nat.sub_le rank 1))
    omega
  case isFalse hodd =>
    have hprev := Nat.mul_lt_mul_of_pos_right
      (units_strictMono (show rank - 1 < rank by omega)) hten
    omega

theorem isNearest_of_coefficient? {rank places coefficient : Nat}
    (h : coefficient? rank places = some coefficient) :
    isNearest rank coefficient places = true := by
  unfold coefficient? at h
  dsimp only at h
  split at h
  case h_1 hbelow habove =>
    split at h
    · cases h; exact hbelow
    · cases h; exact habove
  case h_2 hbelow _ => cases h; exact hbelow
  case h_3 _ habove => cases h; exact habove
  case h_4 => cases h

/-- If the last decimal not above the magnitude is equal to it, it is the one that is chosen. -/
theorem coefficient?_of_eq {rank places coefficient : Nat}
    (h : units rank * Nat.pow 10 places = coefficient * unitsPerOne) :
    coefficient? rank places = some coefficient := by
  have hbelow : units rank * Nat.pow 10 places / unitsPerOne = coefficient := by
    rw [h]
    exact Nat.mul_div_cancel _ unitsPerOne_pos
  have hrest : units rank * Nat.pow 10 places % unitsPerOne = 0 := by
    rw [h]
    exact Nat.mul_mod_left _ _
  unfold coefficient?
  dsimp only
  rw [hbelow, hrest, isNearest_of_eq h]
  split
  · rw [if_pos (by simpa using unitsPerOne_pos)]
  · rfl
  · contradiction
  · contradiction

/-- With 1074 places every magnitude is a decimal. -/
theorem exists_exact (rank : Nat) :
    ∃ coefficient, units rank * Nat.pow 10 1074 = coefficient * unitsPerOne := by
  refine ⟨units rank * Nat.pow 5 1074, ?_⟩
  unfold unitsPerOne
  rw [Nat.mul_assoc, Nat.pow_eq, Nat.pow_eq, Nat.pow_eq, ← Nat.mul_pow]

/-- The shortest decimal rounds to the magnitude. -/
theorem isNearest_shortest (rank : Nat) :
    isNearest rank (shortest rank).1 (shortest rank).2 = true := by
  unfold shortest
  generalize hfound : (List.range 1075).findSome? (fun places =>
    (coefficient? rank places).map fun coefficient => (coefficient, places)) = found
  cases found with
  | none =>
    obtain ⟨coefficient, hexact⟩ := exists_exact rank
    have hnone := List.findSome?_eq_none_iff.1 hfound 1074 (List.mem_range.2 (by decide))
    rw [coefficient?_of_eq hexact] at hnone
    cases hnone
  | some pair =>
    obtain ⟨places, _, hplaces⟩ := List.exists_of_findSome?_eq_some hfound
    obtain ⟨coefficient, hchosen, rfl⟩ := Option.map_eq_some_iff.1 hplaces
    exact isNearest_of_coefficient? hchosen

/-! ## Whole numbers -/

/-- A whole number is written exactly and without places. -/
theorem shortest_of_whole {rank : Nat} (h : units rank % unitsPerOne = 0) :
    shortest rank = (units rank / unitsPerOne, 0) := by
  have hexact : units rank * Nat.pow 10 0 = units rank / unitsPerOne * unitsPerOne := by
    rw [show Nat.pow 10 0 = 1 from rfl, Nat.mul_one, Nat.div_mul_cancel (Nat.dvd_of_mod_eq_zero h)]
  unfold shortest
  rw [List.range_succ_eq_map, List.findSome?_cons, coefficient?_of_eq hexact]
  rfl

/-- Only a whole number is nearest to a whole number of ones: either the steps around it are whole,
or the whole number has a rank of its own. -/
theorem whole_of_isNearest {rank coefficient : Nat} (h : isNearest rank coefficient 0 = true) :
    units rank % unitsPerOne = 0 := by
  have hden : 0 < Nat.pow 10 0 := ten_pow_pos 0
  have hrank := nearestRank_eq_of_nearest hden (isNearest_iff.1 h)
  obtain ⟨e, hplace, hlow, hhigh⟩ := nearestRank_eq_place (coefficient * unitsPerOne) hden
  have hstep : 0 < Nat.pow 10 0 * Nat.pow 2 e := Nat.mul_pos hden (two_pow_pos e)
  have hunits :=
    units_place (hlow.imp_right (le_roundHalfEven hstep)) (roundHalfEven_le hstep hhigh)
  rw [← hplace, hrank] at hunits
  rw [hunits]
  rw [show Nat.pow 10 0 * Nat.pow 2 e = Nat.pow 2 e from Nat.one_mul _]
  obtain hsteps | hsteps := dvd_unitsPerOne_or e
  · exact Nat.mod_eq_zero_of_dvd (Nat.dvd_mul_left_of_dvd hsteps _)
  · -- the steps divide one, so that nothing is rounded away
    have hdvd : Nat.pow 2 e ∣ coefficient * unitsPerOne := Nat.dvd_mul_left_of_dvd hsteps _
    rw [roundHalfEven_of_dvd (two_pow_pos e) hdvd, Nat.div_mul_cancel hdvd]
    exact Nat.mul_mod_left _ _

/-- A number with a fraction is written with places. -/
theorem shortest_places_pos {rank : Nat} (h : units rank % unitsPerOne ≠ 0) :
    0 < (shortest rank).2 := by
  by_contra hzero
  have hnearest := isNearest_shortest rank
  rw [show (shortest rank).2 = 0 by omega] at hnearest
  exact h (whole_of_isNearest hnearest)

/-! ## Digits -/

/-- The digits after the point. -/
def fractionDigits (coefficient places : Nat) : List Char :=
  (Nat.toDigits 10 (coefficient % Nat.pow 10 places)).leftpad places '0'

theorem positional_of_pos {coefficient places : Nat} (h : 0 < places) :
    positional coefficient places = Nat.toDigits 10 (coefficient / Nat.pow 10 places)
      ++ '.' :: fractionDigits coefficient places := by
  unfold positional
  rw [if_neg (by omega)]
  rfl

theorem isDigit_toDigits {n : Nat} : ∀ c ∈ Nat.toDigits 10 n, c.isDigit = true := by
  intro c hc
  exact Nat.isDigit_of_mem_toDigits (by decide) (by decide) hc

theorem isDigit_fractionDigits {coefficient places : Nat} :
    ∀ c ∈ fractionDigits coefficient places, c.isDigit = true := by
  intro c hc
  unfold fractionDigits List.leftpad at hc
  rcases List.mem_append.1 hc with hpad | hdigit
  · rw [List.eq_of_mem_replicate hpad]
    decide
  · exact isDigit_toDigits c hdigit

theorem length_fractionDigits {coefficient places : Nat} (h : 0 < places) :
    (fractionDigits coefficient places).length = places := by
  unfold fractionDigits
  rw [List.length_leftpad]
  have : (Nat.toDigits 10 (coefficient % Nat.pow 10 places)).length ≤ places :=
    (Nat.length_toDigits_le_iff (by decide) h).2 (Nat.mod_lt _ (ten_pow_pos places))
  omega

/-- All digits together spell the coefficient. -/
theorem ofDigitChars_positional {coefficient places : Nat} (h : 0 < places) :
    Nat.ofDigitChars 10 (Nat.toDigits 10 (coefficient / Nat.pow 10 places)
      ++ fractionDigits coefficient places) 0 = coefficient := by
  have hfraction : Nat.ofDigitChars 10 (fractionDigits coefficient places) 0
      = coefficient % Nat.pow 10 places := by
    unfold fractionDigits List.leftpad
    rw [Nat.ofDigitChars_append, Nat.ofDigitChars_replicate_zero, Nat.mul_zero,
      Nat.ofDigitChars_ten_toDigits]
  rw [Nat.ofDigitChars_append, Nat.ofDigitChars_ten_toDigits, Nat.ofDigitChars_eq_ofDigitChars_zero,
    length_fractionDigits h, hfraction]
  exact Nat.div_add_mod _ _

/-- A number with a fraction is the value of the numeral that spells it. -/
theorem toBinary64_positional {rank : Fin rankCount} (negative : Bool)
    (h : units rank % unitsPerOne ≠ 0) :
    Decimal.toBinary64 ⟨negative, Nat.toDigits 10 ((shortest rank).1 / Nat.pow 10 (shortest rank).2)
      ++ fractionDigits (shortest rank).1 (shortest rank).2, -((shortest rank).2 : Int)⟩
      = .finite negative rank := by
  have hpos := shortest_places_pos h
  have hnearest := isNearest_iff.1 (isNearest_shortest rank)
  generalize (shortest rank).1 = coefficient at *
  generalize (shortest rank).2 = places at *
  have hrank : nearestRank (coefficient * unitsPerOne) (Nat.pow 10 places) = rank :=
    nearestRank_eq_of_nearest (ten_pow_pos places) hnearest
  have hcoefficient : coefficient ≠ 0 := by
    rintro rfl
    rw [Nat.zero_mul] at hnearest
    exact h (by rw [hnearest.units_eq_zero (ten_pow_pos places)]; exact Nat.zero_mod _)
  have hlength : places ≤ (Nat.toDigits 10 (coefficient / Nat.pow 10 places)
      ++ fractionDigits coefficient places).length := by
    rw [List.length_append, length_fractionDigits hpos]
    omega
  obtain ⟨k, rfl⟩ : ∃ k, places = k + 1 := ⟨places - 1, by omega⟩
  unfold Decimal.toBinary64
  dsimp only
  rw [ofDigitChars_positional hpos, if_neg hcoefficient, if_neg (by omega), if_neg (by omega)]
  show ofQuotient negative (coefficient * unitsPerOne) (Nat.pow 10 (k + 1)) = _
  unfold ofQuotient
  dsimp only
  rw [dif_pos (by rw [hrank]; exact rank.isLt)]
  congr

/-- A number with a whole number of units is the one nearest to it. -/
theorem ofNat_of_units_eq {rank : Fin rankCount} {n : Nat} (h : units rank = n * unitsPerOne) :
    ofNat n = .finite false rank := by
  have hexact : units rank * Nat.pow 10 0 = n * unitsPerOne := by
    rw [h]
    exact Nat.mul_one _
  have hrank : nearestRank (n * unitsPerOne) 1 = rank :=
    nearestRank_eq_of_nearest Nat.one_pos (isNearest_iff.1 (isNearest_of_eq hexact))
  unfold ofNat ofQuotient
  dsimp only
  rw [dif_pos (by rw [hrank]; exact rank.isLt)]
  congr

/-- A whole number is the value of its digits. -/
theorem toBinary64_digits {rank : Fin rankCount} {n : Nat} (h : units rank = n * unitsPerOne) :
    Decimal.toBinary64 ⟨false, Nat.toDigits 10 n, 0⟩ = .finite false rank := by
  have hvalue := ofNat_of_units_eq h
  unfold Decimal.toBinary64
  dsimp only
  rw [Nat.ofDigitChars_ten_toDigits]
  split
  · next hzero =>
    have hrank : rank.val = 0 := by
      by_contra hne
      have hlt := units_strictMono (Nat.pos_of_ne_zero hne)
      rw [h, hzero, Nat.zero_mul] at hlt
      exact Nat.not_lt_zero _ hlt
    exact congrArg (finite false) (Fin.ext hrank.symm)
  · rw [if_neg (by omega), if_neg (by omega)]
    show ofQuotient false (n * Nat.pow 10 0 * unitsPerOne) 1 = _
    rw [show n * Nat.pow 10 0 = n from Nat.mul_one n]
    exact hvalue

end Zed.Binary64

namespace Zed.Decimal

/-- There is no sign in front of digits. -/
theorem splitSign_digits {digits : List Char} (rest : List Char) (hne : digits ≠ [])
    (hdigits : ∀ c ∈ digits, c.isDigit = true) :
    splitSign (digits ++ rest) = (false, digits ++ rest) := by
  obtain ⟨c, cs, rfl⟩ := List.exists_cons_of_ne_nil hne
  have hc := hdigits c (List.mem_cons_self ..)
  unfold splitSign
  split
  · next heq => cases heq; exact absurd hc (by decide)
  · next heq => cases heq; exact absurd hc (by decide)
  · rfl

/-- Reading digits with a point among them as a numeral. -/
theorem ofChars?_point {whole fraction : List Char} (hne : whole ≠ [])
    (hwhole : ∀ c ∈ whole, c.isDigit = true) (hfraction : ∀ c ∈ fraction, c.isDigit = true) :
    ofChars? (whole ++ '.' :: fraction)
      = some ⟨false, whole ++ fraction, -(fraction.length : Int)⟩ := by
  have hsign := splitSign_digits ('.' :: fraction) hne hwhole
  have htake : (whole ++ '.' :: fraction).takeWhile Char.isDigit = whole := by
    rw [List.takeWhile_append_of_pos hwhole, List.takeWhile_cons_of_neg (by decide),
      List.append_nil]
  have hdrop : (whole ++ '.' :: fraction).dropWhile Char.isDigit = '.' :: fraction := by
    rw [List.dropWhile_append_of_pos hwhole, List.dropWhile_cons_of_neg (by decide)]
  have htake' : fraction.takeWhile Char.isDigit = fraction :=
    List.takeWhile_eq_self_iff.2 hfraction
  have hdrop' : fraction.dropWhile Char.isDigit = [] :=
    List.dropWhile_eq_nil_iff.2 hfraction
  unfold ofChars?
  rw [hsign]
  dsimp only
  rw [htake, hdrop]
  simp [htake', hdrop', hne, exponent?]

/-- Reading digits as a numeral. -/
theorem ofChars?_digits {digits : List Char} (hne : digits ≠ [])
    (hdigits : ∀ c ∈ digits, c.isDigit = true) : ofChars? digits = some ⟨false, digits, 0⟩ := by
  have hsign := splitSign_digits [] hne hdigits
  rw [List.append_nil] at hsign
  have htake : digits.takeWhile Char.isDigit = digits := List.takeWhile_eq_self_iff.2 hdigits
  have hdrop : digits.dropWhile Char.isDigit = [] := List.dropWhile_eq_nil_iff.2 hdigits
  unfold ofChars?
  rw [hsign]
  dsimp only
  rw [htake, hdrop]
  simp [hne, exponent?]

end Zed.Decimal
