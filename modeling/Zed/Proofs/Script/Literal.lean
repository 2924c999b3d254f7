import Mathlib.Data.Rat.Floor
import Zed.Grammar.Term
import Zed.Proofs.Number.Numeral

/-!
# Number literals of a script

A script spells a number so that nothing is lost. The literal of a finite number has digits, and a
point with more digits exactly if the number has a fraction; it reads as that very number, and no
numeral with fewer places does (`Script.number_reads_back`).

A whole number of a program goes through two conversions, from its digits to a number and back to
digits. Up to `2 ^ 53` both are exact, so that the script has the digits of the program, without the
zeros that do not count (`Script.number_of_digits`).
-/

set_option autoImplicit false

namespace Zed

/-! ## Literals read back -/

theorem Script.number_eq_text (negative : Bool) (rank : Fin Binary64.rankCount) :
    Script.number (.finite negative rank)
      = (Numeral.ofDecimal negative (Binary64.shortest rank).1
        (Binary64.shortest rank).2).text := by
  have hsign : (Script.sign negative).toList = if negative then ['-'] else [] := by
    cases negative <;> rfl
  apply String.toList_inj.1
  rw [Numeral.text, Numeral.magnitude_ofDecimal, Script.number, String.toList_append, hsign,
    String.toList_ofList, String.toList_ofList]
  rfl

theorem Binary64.fract_toRat_eq_zero_iff {negative : Bool} {rank : Fin Binary64.rankCount} :
    Int.fract (finite negative rank).toRat = 0 ↔ units rank % unitsPerOne = 0 := by
  have hone : (unitsPerOne : ℚ) ≠ 0 := Nat.cast_ne_zero.2 (Nat.ne_of_gt unitsPerOne_pos)
  have habs : (signedUnits negative rank).natAbs = units rank := by
    cases negative
    · exact Int.natAbs_natCast _
    · exact (Int.natAbs_neg _).trans (Int.natAbs_natCast _)
  rw [Int.fract_eq_zero_iff, toRat, Set.mem_range]
  constructor
  · rintro ⟨z, hz⟩
    rw [eq_div_iff hone] at hz
    have hdvd : (unitsPerOne : ℤ) ∣ signedUnits negative rank :=
      ⟨z, by rw [mul_comm]; exact_mod_cast hz.symm⟩
    rw [← habs]
    exact Nat.mod_eq_zero_of_dvd (Int.natCast_dvd.1 hdvd)
  · intro hwhole
    rw [← habs] at hwhole
    obtain ⟨z, hz⟩ := Int.natCast_dvd.2 (Nat.dvd_of_mod_eq_zero hwhole)
    refine ⟨z, ?_⟩
    rw [eq_div_iff hone, hz, mul_comm]
    push_cast
    rfl

theorem Binary64.shortest_places_eq_zero_iff {rank : Nat} :
    (shortest rank).2 = 0 ↔ units rank % unitsPerOne = 0 := by
  constructor
  · intro hzero
    by_contra hfraction
    have hpos := shortest_places_pos hfraction
    omega
  · intro hwhole
    rw [shortest_of_whole hwhole]

/-- The literal of a finite number is a numeral in positional notation. It has a point exactly if
the number has a fraction, it reads as the same number with the same sign, and every numeral that
does has at least as many places. -/
theorem Script.number_reads_back (negative : Bool) (rank : Fin Binary64.rankCount) :
    ∃ n : Numeral, Script.number (.finite negative rank) = n.text ∧
      ('.' ∈ (Script.number (.finite negative rank)).toList ↔
        Int.fract (Binary64.finite negative rank).toRat ≠ 0) ∧
      Binary64.ofSpelling? (Script.number (.finite negative rank)) = some (.finite negative rank) ∧
      ∀ m : Numeral, Binary64.ofSpelling? m.text = some (.finite negative rank) →
        n.fraction.length ≤ m.fraction.length := by
  rw [Script.number_eq_text]
  have hnearest := Binary64.isNearest_iff.1 (Binary64.isNearest_shortest rank)
  have hplaces :=
    Numeral.length_fraction_ofDecimal negative (Binary64.shortest rank).1 (Binary64.shortest rank).2
  refine ⟨_, rfl, ?_, ?_, ?_⟩
  · rw [Numeral.mem_point_iff, ne_eq, ne_eq, not_iff_not, ← List.length_eq_zero_iff, hplaces,
      Binary64.fract_toRat_eq_zero_iff, Binary64.shortest_places_eq_zero_iff]
  · rw [Numeral.ofSpelling?_eq_some_iff, Numeral.coefficient_ofDecimal, hplaces]
    exact ⟨rfl, hnearest⟩
  · intro m hm
    rw [hplaces]
    exact Binary64.shortest_places_le (Binary64.isNearest_iff.2 (m.ofSpelling?_eq_some_iff.1 hm).2)

/-! ## Digits of a whole number -/

/-- Digits without the zeros in front; one zero stays if there is nothing else. -/
def Numeral.withoutZeros (digits : List Char) : List Char :=
  if digits.dropWhile (· = '0') = [] then ['0'] else digits.dropWhile (· = '0')

theorem Numeral.digitChar_of_isDigit {c : Char} (h : c.isDigit = true) :
    c.toNat - '0'.toNat < 10 ∧ Nat.digitChar (c.toNat - '0'.toNat) = c := by
  have hrange : 48 ≤ c.toNat ∧ c.toNat ≤ 57 := Char.isDigit_iff_toNat.1 h
  have hlt : c.toNat - '0'.toNat < 10 := by
    show c.toNat - 48 < 10
    omega
  refine ⟨hlt, Char.toNat_inj.1 ?_⟩
  rw [Nat.toNat_digitChar_of_lt_ten hlt]
  show 48 + (c.toNat - 48) = c.toNat
  omega

/-- Digits behind the digits of a number are the digits of the number that all of them spell. -/
theorem Numeral.toDigits_append {digits : List Char} (h : ∀ c ∈ digits, c.isDigit = true) {n : Nat}
    (hn : 0 < n) :
    Nat.toDigits 10 n ++ digits = Nat.toDigits 10 (Nat.ofDigitChars 10 digits n) := by
  induction digits generalizing n with
  | nil => exact List.append_nil _
  | cons c digits ih =>
    obtain ⟨hc, hdigits⟩ := List.forall_mem_cons.1 h
    obtain ⟨hlt, hchar⟩ := digitChar_of_isDigit hc
    have hone := Nat.toDigits_append_toDigits (show 1 < 10 by decide) hn hlt
    rw [Nat.toDigits_of_lt_base hlt, hchar] at hone
    rw [Nat.ofDigitChars_cons, ← ih hdigits (by omega), ← hone, List.append_assoc,
      List.singleton_append]

/-- The digits of the number that digits spell are those digits without the zeros in front. -/
theorem Numeral.toDigits_ofDigitChars {digits : List Char} (h : ∀ c ∈ digits, c.isDigit = true) :
    Nat.toDigits 10 (Nat.ofDigitChars 10 digits 0) = withoutZeros digits := by
  induction digits with
  | nil => rfl
  | cons c digits ih =>
    obtain ⟨hc, hdigits⟩ := List.forall_mem_cons.1 h
    rw [Nat.ofDigitChars_cons, withoutZeros]
    by_cases hzero : c = '0'
    · rw [hzero, List.dropWhile_cons_of_pos (by decide)]
      exact ih hdigits
    · -- The first digit counts, and so do all behind it.
      obtain ⟨hlt, hchar⟩ := digitChar_of_isDigit hc
      have hpos : 0 < c.toNat - '0'.toNat := by
        apply Nat.pos_of_ne_zero
        intro heq
        rw [heq] at hchar
        exact hzero hchar.symm
      rw [List.dropWhile_cons_of_neg (by rwa [decide_eq_true_iff]),
        if_neg (List.cons_ne_nil c digits), Nat.mul_zero, Nat.zero_add,
        ← toDigits_append hdigits hpos, Nat.toDigits_of_lt_base hlt, hchar]
      rfl

/-! ## Whole numbers reach the script -/

/-- A whole number of ones is read from any decimal that is equal to it. -/
theorem Rule.finiteNumber_of_decimal {chars digits : List Char} {places n : Nat}
    {rank : Fin Binary64.rankCount}
    (hread : Decimal.ofChars? chars = some ⟨false, digits, -(places : Int)⟩)
    (hplaces : places ≤ digits.length)
    (hdigits : Nat.ofDigitChars 10 digits 0 = n * Nat.pow 10 places)
    (hrank : Binary64.units rank = n * Binary64.unitsPerOne) :
    Rule.finiteNumber (String.ofList chars) = .ok (.finite false rank) := by
  have hexact : Binary64.units rank * Nat.pow 10 places
      = n * Nat.pow 10 places * Binary64.unitsPerOne := by
    rw [hrank, Nat.mul_right_comm]
  have hvalue := (Binary64.ofQuotient_eq_finite_iff (s := false) (Binary64.ten_pow_pos places)).2
    ⟨rfl, Binary64.isNearest_iff.1 (Binary64.isNearest_of_eq hexact)⟩
  rw [Rule.finiteNumber, Binary64.ofSpelling?, String.toList_ofList, hread, Option.bind_some,
    Decimal.toBinary64_of_places false hplaces, hdigits, hvalue]
  rfl

/-- Digits that spell a whole number up to `2 ^ 53` are read as a number, with or without a point
and zeros behind them. The script spells it by the same digits, without the zeros in front. -/
theorem Script.number_of_digits {digits : List Char} (hne : digits ≠ [])
    (hdigits : ∀ c ∈ digits, c.isDigit = true) (hle : Nat.ofDigitChars 10 digits 0 ≤ 2 ^ 53) :
    ∃ x, Rule.finiteNumber (String.ofList digits) = .ok x ∧
      (∀ zeros, Rule.finiteNumber (String.ofList (digits ++ '.' :: List.replicate zeros '0'))
        = .ok x) ∧
      Script.number x = String.ofList (Numeral.withoutZeros digits) := by
  obtain ⟨rank, hrank⟩ := Binary64.exists_units_eq hle
  refine ⟨.finite false rank, ?_, fun zeros => ?_, ?_⟩
  · have hread : Decimal.ofChars? digits = some ⟨false, digits, -((0 : Nat) : Int)⟩ :=
      Decimal.ofChars?_digits hne hdigits
    exact Rule.finiteNumber_of_decimal hread (Nat.zero_le _) (Nat.mul_one _).symm hrank
  · have hzeros : ∀ c ∈ List.replicate zeros '0', c.isDigit = true := by
      intro c hc
      rw [List.eq_of_mem_replicate hc]
      decide
    have hread := Decimal.ofChars?_point hne hdigits hzeros
    rw [List.length_replicate] at hread
    -- The zeros multiply the digits by a power of ten, and the places divide by the same one.
    refine Rule.finiteNumber_of_decimal hread ?_ ?_ hrank
    · rw [List.length_append, List.length_replicate]
      omega
    · rw [Nat.ofDigitChars_append, Nat.ofDigitChars_replicate_zero, Nat.mul_comm]
      rfl
  · have hwhole : Binary64.units rank % Binary64.unitsPerOne = 0 := by
      rw [hrank]
      exact Nat.mul_mod_left _ _
    rw [Script.number, Binary64.shortest_of_whole hwhole, hrank,
      Nat.mul_div_cancel _ Binary64.unitsPerOne_pos]
    dsimp only
    rw [Binary64.positional, if_pos rfl, show Nat.pow 10 0 = 1 from rfl, Nat.div_one,
      Numeral.toDigits_ofDigitChars hdigits]
    exact String.empty_append

/-- The last whole number of the theorem, with zeros in front. -/
theorem Script.number_of_digits_limit :
    ∃ x, Rule.finiteNumber "0009007199254740992" = .ok x ∧
      Rule.finiteNumber "0009007199254740992.000" = .ok x ∧
      Script.number x = "9007199254740992" := by
  have hne : "0009007199254740992".toList ≠ [] := by decide
  have hdigits : "0009007199254740992".toList.all Char.isDigit = true := by decide
  have hle : Nat.ofDigitChars 10 "0009007199254740992".toList 0 ≤ 2 ^ 53 := by decide
  obtain ⟨x, hplain, hpoint, hnumber⟩ :=
    Script.number_of_digits hne (List.all_eq_true.1 hdigits) hle
  exact ⟨x, hplain, hpoint 3, hnumber⟩

end Zed
