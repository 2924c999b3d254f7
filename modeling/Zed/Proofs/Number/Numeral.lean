import Zed.Proofs.Number.Order
import Zed.Proofs.Number.Spelling

/-!
# Numerals in positional notation

A numeral is read as the number nearest to it: the reading of a numeral in
positional notation is determined by its sign and by which rank is nearest to its
digits (`Numeral.ofSpelling?_eq_some_iff`). So whether a text reads back is a
question about rounding alone.

Two facts about magnitudes then say what spellings exist. No decimal with fewer places than the
shortest one rounds to a magnitude (`Binary64.shortest_places_le`). Every whole number up to
`2 ^ 53` is a magnitude (`Binary64.exists_units_eq`).
-/

set_option autoImplicit false

namespace Zed

/-! ## Reading -/

namespace Binary64

/-- Rounding gives the finite number whose rank is nearest. -/
theorem ofQuotient_eq_finite_iff {s t : Bool} {num den : Nat} {rank : Fin rankCount}
    (hden : 0 < den) :
    ofQuotient s num den = .finite t rank ↔ s = t ∧ Nearest num den rank := by
  unfold ofQuotient
  constructor
  · intro h
    dsimp only at h
    split at h
    · cases h
      exact ⟨rfl, nearest_nearestRank num hden⟩
    · cases h
  · rintro ⟨rfl, hnearest⟩
    have hrank := nearestRank_eq_of_nearest hden hnearest
    dsimp only
    rw [dif_pos (by rw [hrank]; exact rank.isLt)]
    congr

/-- The quotient zero is rounded to zero, with its sign. -/
theorem ofQuotient_zero (s : Bool) {den : Nat} (hden : 0 < den) : ofQuotient s 0 den = zero s := by
  refine (ofQuotient_eq_finite_iff hden).2 ⟨rfl, ?_⟩
  show (0 + 0) * den ≤ 2 * 0 ∧ 2 * 0 ≤ _
  exact ⟨by rw [Nat.zero_mul], Nat.zero_le _⟩

end Binary64

namespace Decimal

/-- With no more places than digits a decimal is far from the limits of the exponent. -/
theorem toBinary64_of_places (negative : Bool) {digits : List Char} {places : Nat}
    (h : places ≤ digits.length) : toBinary64 ⟨negative, digits, -(places : Int)⟩
      = .ofQuotient negative (Nat.ofDigitChars 10 digits 0 * Binary64.unitsPerOne)
        (Nat.pow 10 places) := by
  unfold toBinary64
  dsimp only
  split
  · next hzero => rw [hzero, Nat.zero_mul, Binary64.ofQuotient_zero _ (Binary64.ten_pow_pos places)]
  · rw [if_neg (by omega), if_neg (by omega)]
    cases places with
    | zero =>
      show Binary64.ofQuotient negative (_ * Nat.pow 10 0 * _) 1 = _
      rw [show Nat.pow 10 0 = 1 from rfl, Nat.mul_one]
    | succ k => rfl

/-- A minus sign in front of a numeral without a sign. -/
theorem ofChars?_minus {cs : List Char} (h : splitSign cs = (false, cs)) :
    ofChars? ('-' :: cs) = (ofChars? cs).map fun d => { d with negative := true } := by
  have hminus : splitSign ('-' :: cs) = (true, cs) := rfl
  unfold ofChars?
  rw [h, hminus]
  dsimp only
  rw [apply_ite (Option.map _), Option.map_map]
  rfl

end Decimal

/-- A numeral in positional notation. -/
structure Numeral where
  negative : Bool
  /-- The digits before the point. -/
  whole : List Char
  /-- The digits behind the point. Without any there is no point. -/
  fraction : List Char
  whole_ne_nil : whole ≠ []
  isDigit_whole : ∀ c ∈ whole, c.isDigit = true
  isDigit_fraction : ∀ c ∈ fraction, c.isDigit = true

namespace Numeral

/-- The characters behind the sign. -/
def magnitude (n : Numeral) : List Char :=
  n.whole ++ if n.fraction = [] then [] else '.' :: n.fraction

/-- The numeral as a text. -/
def text (n : Numeral) : String :=
  String.ofList ((if n.negative then ['-'] else []) ++ n.magnitude)

/-- All digits together, as a whole number. -/
def coefficient (n : Numeral) : Nat :=
  Nat.ofDigitChars 10 (n.whole ++ n.fraction) 0

theorem ofChars?_magnitude (n : Numeral) :
    Decimal.ofChars? n.magnitude
      = some ⟨false, n.whole ++ n.fraction, -(n.fraction.length : Int)⟩ := by
  rw [magnitude]
  split
  · next hempty =>
    rw [hempty, List.append_nil]
    exact Decimal.ofChars?_digits n.whole_ne_nil n.isDigit_whole
  · exact Decimal.ofChars?_point n.whole_ne_nil n.isDigit_whole n.isDigit_fraction

/-- A numeral is read as its sign, its digits and the number of its places. -/
theorem ofChars?_text (n : Numeral) : Decimal.ofChars? n.text.toList
    = some ⟨n.negative, n.whole ++ n.fraction, -(n.fraction.length : Int)⟩ := by
  rw [text, String.toList_ofList]
  cases n.negative with
  | false => exact n.ofChars?_magnitude
  | true =>
    have hsign : Decimal.splitSign n.magnitude = (false, n.magnitude) :=
      Decimal.splitSign_digits _ n.whole_ne_nil n.isDigit_whole
    show Decimal.ofChars? ('-' :: n.magnitude) = _
    rw [Decimal.ofChars?_minus hsign, n.ofChars?_magnitude]
    rfl

/-- A numeral reads as the number that has its sign and the rank nearest to its digits. -/
theorem ofSpelling?_eq_some_iff (n : Numeral) {negative : Bool} {rank : Fin Binary64.rankCount} :
    Binary64.ofSpelling? n.text = some (.finite negative rank) ↔ n.negative = negative ∧
      Binary64.Nearest (n.coefficient * Binary64.unitsPerOne)
        (Nat.pow 10 n.fraction.length) rank := by
  have hplaces : n.fraction.length ≤ (n.whole ++ n.fraction).length := by
    rw [List.length_append]
    omega
  rw [Binary64.ofSpelling?, ofChars?_text, Option.bind_some, Decimal.toBinary64_of_places _ hplaces,
    ← Binary64.ofQuotient_eq_finite_iff (Binary64.ten_pow_pos _), coefficient]
  generalize Binary64.ofQuotient _ _ _ = x
  constructor
  · intro h
    split at h
    · exact Option.some.inj h
    · cases h
  · rintro rfl
    rfl

/-- There is a point in a numeral exactly if there are digits behind it. -/
theorem mem_point_iff (n : Numeral) : '.' ∈ n.text.toList ↔ n.fraction ≠ [] := by
  have hdigit : ∀ {digits : List Char}, (∀ c ∈ digits, c.isDigit = true) → '.' ∉ digits :=
    fun h hmem => absurd (h _ hmem) (by decide)
  have hsign : '.' ∉ (if n.negative then ['-'] else []) := by split <;> decide
  rw [text, String.toList_ofList, List.mem_append, or_iff_right hsign, magnitude, List.mem_append,
    or_iff_right (hdigit n.isDigit_whole)]
  split
  · next hempty => exact ⟨fun hmem => absurd hmem List.not_mem_nil, fun hne => absurd hempty hne⟩
  · next hne => exact ⟨fun _ => hne, fun _ => List.mem_cons_self⟩

/-- The numeral of a decimal with a given number of places. -/
def ofDecimal (negative : Bool) (coefficient places : Nat) : Numeral where
  negative := negative
  whole := Nat.toDigits 10 (coefficient / Nat.pow 10 places)
  fraction := if places = 0 then [] else Binary64.fractionDigits coefficient places
  whole_ne_nil := Nat.toDigits_ne_nil
  isDigit_whole := Binary64.isDigit_toDigits
  isDigit_fraction := by
    split
    · exact fun _ hc => absurd hc List.not_mem_nil
    · exact Binary64.isDigit_fractionDigits

variable (negative : Bool) (c places : Nat)

theorem length_fraction_ofDecimal : (ofDecimal negative c places).fraction.length = places := by
  rw [ofDecimal]
  dsimp only
  split
  · next hzero => rw [hzero]; rfl
  · next hne => exact Binary64.length_fractionDigits (Nat.pos_of_ne_zero hne)

theorem coefficient_ofDecimal : (ofDecimal negative c places).coefficient = c := by
  rw [coefficient, ofDecimal]
  dsimp only
  split
  · next hzero =>
    rw [hzero, List.append_nil, Nat.ofDigitChars_ten_toDigits]
    exact Nat.div_one c
  · next hne => exact Binary64.ofDigitChars_positional (Nat.pos_of_ne_zero hne)

theorem magnitude_ofDecimal :
    (ofDecimal negative c places).magnitude = Binary64.positional c places := by
  have hlength := length_fraction_ofDecimal negative c places
  by_cases hzero : places = 0
  · rw [magnitude, if_pos (List.length_eq_zero_iff.1 (hlength.trans hzero)), List.append_nil, hzero,
      Binary64.positional, if_pos rfl]
    rfl
  · rw [magnitude, if_neg (by rw [← List.length_eq_zero_iff, hlength]; exact hzero),
      Binary64.positional_of_pos (Nat.pos_of_ne_zero hzero), ofDecimal]
    dsimp only
    rw [if_neg hzero]

end Numeral

/-! ## The fewest places -/

namespace Binary64

/-- If any decimal with these places rounds to a magnitude, so does one of its two
neighbours among them. -/
theorem coefficient?_ne_none {rank coefficient places : Nat}
    (h : isNearest rank coefficient places = true) :
    coefficient? rank places ≠ none := by
  have hten := ten_pow_pos places
  have hdiv := Nat.div_add_mod (units rank * Nat.pow 10 places) unitsPerOne
  have hmod := Nat.mod_lt (units rank * Nat.pow 10 places) unitsPerOne_pos
  rw [Nat.mul_comm] at hdiv
  unfold coefficient?
  dsimp only
  generalize units rank * Nat.pow 10 places / unitsPerOne = below at hdiv
  -- The neighbour on the side of the given decimal lies between it and the magnitude.
  have hone : isNearest rank below places = true ∨ isNearest rank (below + 1) places = true := by
    rw [isNearest_iff] at h
    rw [isNearest_iff, isNearest_iff]
    rcases Nat.lt_or_ge below coefficient with hlt | hge
    · have hcoefficient := Nat.mul_le_mul_right unitsPerOne (show below + 1 ≤ coefficient from hlt)
      have hsucc : (below + 1) * unitsPerOne = below * unitsPerOne + unitsPerOne := Nat.succ_mul _ _
      exact .inr (h.of_between hten (.inl ⟨by omega, hcoefficient⟩))
    · have hcoefficient := Nat.mul_le_mul_right unitsPerOne hge
      exact .inl (h.of_between hten (.inr ⟨hcoefficient, by omega⟩))
  split
  · exact Option.some_ne_none _
  · exact Option.some_ne_none _
  · exact Option.some_ne_none _
  · next hbelow habove =>
    rw [hbelow, habove] at hone
    rcases hone with hone | hone <;> cases hone

/-- Every decimal that rounds to a magnitude has at least the places of the shortest one. -/
theorem shortest_places_le {rank coefficient places : Nat}
    (h : isNearest rank coefficient places = true) :
    (shortest rank).2 ≤ places := by
  unfold shortest
  cases hfound : (List.range 1075).findSome? (fun places =>
    (coefficient? rank places).map fun coefficient => (coefficient, places)) with
  | none => exact Nat.zero_le _
  | some pair =>
    obtain ⟨before, k, behind, hrange, hk, hbefore⟩ := List.findSome?_eq_some_iff.1 hfound
    obtain ⟨c, hc, rfl⟩ := Option.map_eq_some_iff.1 hk
    show k ≤ places
    by_contra hlt
    -- The places lie in the range before those that were found, and there nothing was found.
    have hbound : k < 1075 := by
      rw [← List.mem_range, hrange]
      exact List.mem_append_right _ List.mem_cons_self
    have hmem : places ∈ before ++ k :: behind := by
      rw [← hrange, List.mem_range]
      omega
    have hsorted : (before ++ k :: behind).Pairwise (· < ·) := hrange ▸ List.pairwise_lt_range
    rcases List.mem_append.1 hmem with hmem | hmem
    · exact coefficient?_ne_none h (Option.map_eq_none_iff.1 (hbefore places hmem))
    · rcases List.mem_cons.1 hmem with rfl | hmem
      · omega
      · have hbehind := (List.pairwise_cons.1 (List.pairwise_append.1 hsorted).2.1).1 places hmem
        omega

/-! ## Whole numbers -/

/-- A finite number is whole exactly if its units make up whole ones. -/
theorem isWhole_iff {s : Bool} {rank : Fin rankCount} :
    (finite s rank).isWhole = true ↔ units rank % unitsPerOne = 0 :=
  decide_eq_true_iff

/-- Up to `2 ^ 53` the steps are not too wide for a whole number. -/
theorem dvd_of_le {n e : Nat} (h : n ≤ 2 * binade)
    (hlow : e = 0 ∨ binade * Nat.pow 2 e ≤ n * unitsPerOne) :
    Nat.pow 2 e ∣ n * unitsPerOne := by
  rcases dvd_unitsPerOne_or e with ⟨ones, hstep⟩ | hdvd
  · rcases hlow with rfl | hlow
    · exact Nat.one_dvd _
    · -- The step is one, or it is two and the number is the limit itself.
      rw [hstep, Nat.mul_comm unitsPerOne, ← Nat.mul_assoc] at hlow
      have hreach := Nat.le_of_mul_le_mul_right hlow unitsPerOne_pos
      have hpos : ones ≠ 0 := by
        rintro rfl
        rw [Nat.mul_zero] at hstep
        exact Nat.ne_of_gt (two_pow_pos e) hstep
      rw [hstep, Nat.mul_comm]
      apply Nat.mul_dvd_mul_right
      have hcases : ones = 1 ∨ ones = 2 ∧ n = 2 * binade := by
        have hwide : 3 ≤ ones → binade * 3 ≤ binade * ones := Nat.mul_le_mul_left binade
        have htwo : ones = 2 → binade * ones = 2 * binade := by rintro rfl; rfl
        have hbinade : 0 < binade := by decide
        omega
      obtain rfl | ⟨rfl, rfl⟩ := hcases
      · exact Nat.one_dvd n
      · exact Nat.dvd_mul_right 2 binade
  · exact Nat.dvd_mul_left_of_dvd hdvd n

/-- Every whole number up to `2 ^ 53` is a magnitude. -/
theorem exists_units_eq {n : Nat} (h : n ≤ 2 * binade) :
    ∃ rank : Fin rankCount, units rank = n * unitsPerOne := by
  obtain ⟨e, hplace, hlow, hhigh⟩ := nearestRank_eq_place (n * unitsPerOne) Nat.one_pos
  rw [Nat.one_mul] at hplace hlow hhigh
  have hstep := two_pow_pos e
  have hunits :=
    units_place (hlow.imp_right (le_roundHalfEven hstep)) (roundHalfEven_le hstep hhigh)
  have hdvd := dvd_of_le h hlow
  have hexact : units (nearestRank (n * unitsPerOne) 1) = n * unitsPerOne := by
    rw [hplace, hunits, roundHalfEven_of_dvd hstep hdvd, Nat.div_mul_cancel hdvd]
  have hbound : nearestRank (n * unitsPerOne) 1 < rankCount := by
    have hlimit : 2 * binade * unitsPerOne < units rankCount := by decide +kernel
    rw [← units_lt_units, hexact]
    exact Nat.lt_of_le_of_lt (Nat.mul_le_mul_right _ h) hlimit
  exact ⟨⟨_, hbound⟩, hexact⟩

end Binary64

end Zed
