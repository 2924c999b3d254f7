import Zed.Proofs.Grammar.WellFormed
import Zed.Proofs.Number.Spelling
import Zed.Token.Scan

/-!
# The alphabet of source texts

What the tokens of a source text can carry: variables are a capital letter and digits, strings hold
printable characters without the quote, numbers have no sign, and the name of a program is a word
that is neither a keyword nor a variable.
-/

set_option autoImplicit false

namespace Zed

/-- A capital letter and digits after it. -/
def Variable.isName (name : String) : Bool :=
  match name.toList with
  | c :: digits => c.isUpper && digits.all Char.isDigit
  | [] => false

/-- The name of a variable is a capital letter and any digits. -/
theorem Variable.isName_iff {name : String} : Variable.isName name = true ↔
    ∃ c digits, name.toList = c :: digits ∧ c.isUpper = true ∧ ∀ d ∈ digits, d.isDigit = true := by
  rw [Variable.isName]
  cases name.toList with
  | nil => simp
  | cons c digits =>
    simp only [Bool.and_eq_true, List.all_eq_true]
    constructor
    · intro h
      exact ⟨c, digits, rfl, h⟩
    · rintro ⟨_, _, ⟨⟩, h⟩
      exact h

/-- The number is finite and has no minus sign. -/
def Binary64.IsUnsigned (x : Binary64) : Prop :=
  ∃ rank, x = .finite false rank

/-- The alphabet of source texts. -/
def Alphabet.source : Alphabet where
  name name := Variable.isName name = true
  body body := body.toList.all Lexeme.isBodyChar = true
  value := Binary64.IsUnsigned
  ident name := name.toList ≠ [] ∧ name.toList.all Lexeme.isIdentChar = true ∧
    Keyword.ofSpelling? name = none ∧ Variable.isName name = false

/-! ## Numbers without a sign -/

namespace Decimal

/-- A numeral without a sign is not negative. -/
theorem negative_eq_false {cs : List Char} {d : Decimal} (hsign : (splitSign cs).1 = false)
    (h : ofChars? cs = some d) : d.negative = false := by
  unfold ofChars? at h
  dsimp only at h
  split at h
  all_goals
    split at h
    · cases h
    · obtain ⟨_, _, rfl⟩ := Option.map_eq_some_iff.1 h
      exact hsign

theorem ofQuotient_unsigned {num den : Nat}
    (h : (Binary64.ofQuotient false num den).isFinite = true) :
    (Binary64.ofQuotient false num den).IsUnsigned := by
  unfold Binary64.ofQuotient at h ⊢
  dsimp only at h ⊢
  split
  · exact ⟨_, rfl⟩
  · next hlarge =>
    rw [dif_neg hlarge] at h
    cases h

/-- The sign of a numeral is the sign of its value. -/
theorem toBinary64_unsigned {d : Decimal} (hsign : d.negative = false)
    (hfinite : d.toBinary64.isFinite = true) : d.toBinary64.IsUnsigned := by
  unfold toBinary64 at hfinite ⊢
  dsimp only at hfinite ⊢
  rw [hsign] at hfinite ⊢
  split
  · exact ⟨_, rfl⟩
  · next hzero =>
    rw [if_neg hzero] at hfinite
    split
    · next hlarge =>
      rw [if_pos hlarge] at hfinite
      cases hfinite
    · next hsize =>
      rw [if_neg hsize] at hfinite
      split
      · exact ⟨_, rfl⟩
      · next hsmall =>
        rw [if_neg hsmall] at hfinite
        split
        · next heq =>
          rw [heq] at hfinite
          exact ofQuotient_unsigned hfinite
        · next heq =>
          rw [heq] at hfinite
          exact ofQuotient_unsigned hfinite

end Decimal

/-- The number of a numeral without a sign has none. -/
theorem Binary64.ofSpelling?_unsigned {spelling : String} {x : Binary64}
    (hsign : (Decimal.splitSign spelling.toList).1 = false)
    (h : Binary64.ofSpelling? spelling = some x) : x.IsUnsigned := by
  unfold Binary64.ofSpelling? at h
  obtain ⟨d, hd, h⟩ := Option.bind_eq_some_iff.1 h
  split at h
  · next hfinite =>
    cases h
    exact Decimal.toBinary64_unsigned (Decimal.negative_eq_false hsign hd) hfinite
  · cases h

/-! ## One class at a time -/

namespace Lexeme

/-- If the lexeme stands for a token, its kind is admitted. -/
def Admitted (l : Lexeme) : Prop :=
  ∀ kind, l.kind = some kind → Alphabet.source.Admits kind

theorem keyword?_admitted {cs : List Char} {l : Lexeme} (h : keyword? cs = some l) :
    l.Admitted := by
  obtain ⟨word, _, rfl⟩ := Option.map_eq_some_iff.1 h
  rintro kind ⟨⟩
  trivial

theorem symbol?_admitted {cs : List Char} {l : Lexeme} (h : symbol? cs = some l) : l.Admitted := by
  obtain ⟨sign, _, rfl⟩ := Option.map_eq_some_iff.1 h
  rintro kind ⟨⟩
  trivial

/-- There is no quote and no line break in the body of a text. -/
theorem text?_admitted {cs : List Char} {l : Lexeme} (h : text? cs = some l) : l.Admitted := by
  unfold text? at h
  split at h
  · dsimp only at h
    split at h
    · cases h
      rintro kind ⟨⟩
      show (String.ofList _).toList.all isBodyChar = true
      rw [String.toList_ofList]
      exact List.all_takeWhile
    · cases h
  · cases h

/-- A numeral has digits and no sign. -/
theorem number?_admitted {cs : List Char} {l : Lexeme} (h : number? cs = some l) : l.Admitted := by
  unfold number? at h
  dsimp only at h
  split at h
  · cases h
  · next hne =>
    split at h
    · cases h
      rintro kind ⟨⟩ x hx
      refine Binary64.ofSpelling?_unsigned ?_ hx
      rw [String.toList_ofList,
        Decimal.splitSign_digits _ hne (List.all_eq_true.1 List.all_takeWhile)]
    · split at h
      · cases h
        rintro kind ⟨⟩ x hx
        refine Binary64.ofSpelling?_unsigned ?_ hx
        rw [String.toList_ofList, ← List.append_nil (cs.takeWhile Char.isDigit),
          Decimal.splitSign_digits [] hne (List.all_eq_true.1 List.all_takeWhile)]
      · cases h

/-- A variable has a name as it should. -/
theorem var?_admitted {cs : List Char} {l : Lexeme} (h : var? cs = some l) : l.Admitted := by
  unfold var? at h
  split at h
  · dsimp only at h
    split at h
    · next hname =>
      cases h
      rintro kind ⟨⟩
      refine Variable.isName_iff.2 ⟨_, _, String.toList_ofList, hname.1, ?_⟩
      exact List.all_eq_true.1 List.all_takeWhile
    · cases h
  · cases h

theorem isIdentChar_eq (c : Char) :
    isIdentChar c = (c.isUpper || c.isLower || decide (c = '_')) := rfl

theorem isWordChar_of_isIdentChar {c : Char} (h : isIdentChar c = true) : isWordChar c = true := by
  unfold isIdentChar at h
  unfold isWordChar Char.isAlphanum
  rw [Bool.or_eq_true] at h ⊢
  exact h.imp_left fun halpha => by rw [halpha, Bool.true_or]

theorem isWordChar_of_isDigit {c : Char} (h : c.isDigit = true) : isWordChar c = true := by
  unfold isWordChar Char.isAlphanum
  rw [h, Bool.or_true, Bool.true_or]

theorem isIdentChar_eq_false_of_isDigit {c : Char} (h : c.isDigit = true) :
    isIdentChar c = false := by
  rw [isIdentChar_eq]
  unfold Char.isUpper Char.isLower
  unfold Char.isDigit at h
  simp only [ge_iff_le, Bool.and_eq_true, decide_eq_true_eq, UInt32.le_iff_toNat_le] at h
  have hunderscore : c ≠ '_' := by
    rintro rfl
    exact absurd h (by decide)
  simp only [hunderscore, decide_false, Bool.or_false, Bool.or_eq_false_iff, Bool.and_eq_false_iff,
    decide_eq_false_iff_not, ge_iff_le, UInt32.le_iff_toNat_le, Char.reduceVal,
    UInt32.reduceToNat] at h ⊢
  omega

/-- No character of a class that words are made of follows at the end of a word. -/
theorem takeWhile_eq_nil_of_endsWord {p : Char → Bool} {cs : List Char}
    (hp : ∀ c, p c = true → isWordChar c = true) (h : endsWord cs = true) :
    cs.takeWhile p = [] := by
  cases cs with
  | nil => rfl
  | cons c rest =>
    apply List.takeWhile_cons_of_neg
    intro hc
    rw [endsWord, List.head?_cons, Option.any_some, hp c hc] at h
    cases h

/-- A run of letters at the end of a word is the whole word. -/
theorem takeWhile_isWordChar {cs : List Char} (h : endsWord (cs.dropWhile isIdentChar) = true) :
    cs.takeWhile isWordChar = cs.takeWhile isIdentChar := by
  have hletters : ∀ c ∈ cs.takeWhile isIdentChar, isWordChar c = true := fun c hc =>
    isWordChar_of_isIdentChar (List.all_eq_true.1 List.all_takeWhile c hc)
  calc cs.takeWhile isWordChar
      = (cs.takeWhile isIdentChar ++ cs.dropWhile isIdentChar).takeWhile isWordChar := by
        rw [List.takeWhile_append_dropWhile]
    _ = cs.takeWhile isIdentChar ++ (cs.dropWhile isIdentChar).takeWhile isWordChar :=
        List.takeWhile_append_of_pos hletters
    _ = cs.takeWhile isIdentChar := by
        rw [takeWhile_eq_nil_of_endsWord (fun _ hc => hc) h, List.append_nil]

/-- A capital letter that is a whole word is a variable. -/
theorem var?_capital {c : Char} {rest : List Char} (hc : c.isUpper = true)
    (hend : endsWord rest = true) :
    var? (c :: rest) ≠ none := by
  have hdigits : rest.takeWhile Char.isDigit = [] :=
    takeWhile_eq_nil_of_endsWord (fun _ hd => isWordChar_of_isDigit hd) hend
  have hdrop : rest.dropWhile Char.isDigit = rest := by
    have hrest := rest.takeWhile_append_dropWhile (p := Char.isDigit)
    rwa [hdigits, List.nil_append] at hrest
  simp [var?, hdrop, hc, hend]

/-- An identifier that is tried after keywords and variables is neither of them. -/
theorem ident?_admitted {cs : List Char} {l : Lexeme} (hkeyword : keyword? cs = none)
    (hvar : var? cs = none) (h : ident? cs = some l) : l.Admitted := by
  unfold ident? at h
  dsimp only at h
  split at h
  case isFalse => cases h
  case isTrue hname =>
    obtain ⟨hne, hend⟩ := hname
    have hall : ∀ c ∈ cs.takeWhile isIdentChar, isIdentChar c = true :=
      List.all_eq_true.1 List.all_takeWhile
    cases h
    rintro kind ⟨⟩
    refine ⟨by rwa [String.toList_ofList], ?_, ?_, ?_⟩
    · rw [String.toList_ofList, List.all_eq_true]
      exact hall
    · rw [keyword?, takeWhile_isWordChar hend] at hkeyword
      exact Option.map_eq_none_iff.1 hkeyword
    · rw [Bool.eq_false_iff]
      intro hisName
      obtain ⟨c, digits, hchars, hupper, hdigits⟩ := Variable.isName_iff.1 hisName
      rw [String.toList_ofList] at hchars
      -- A digit is no letter, so the name is one capital letter, and that is a variable.
      cases digits with
      | cons d digits =>
        have hletter := hall d (by simp [hchars])
        rw [isIdentChar_eq_false_of_isDigit (hdigits d (List.mem_cons_self ..))] at hletter
        cases hletter
      | nil =>
        have hcs : cs = c :: cs.dropWhile isIdentChar := by
          have hsplit := cs.takeWhile_append_dropWhile (p := isIdentChar)
          rw [hchars, List.singleton_append] at hsplit
          exact hsplit.symm
        rw [hcs] at hvar
        exact var?_capital hupper hend hvar

/-! ## Lexemes and tokens -/

/-- Whatever comes first in a source text is admitted. -/
theorem first_admitted (cs : List Char) : (first cs).Admitted := by
  unfold first
  cases hkeyword : keyword? cs with
  | some l => exact keyword?_admitted hkeyword
  | none =>
  cases hsymbol : symbol? cs with
  | some l => exact symbol?_admitted hsymbol
  | none =>
  cases htext : text? cs with
  | some l => exact text?_admitted htext
  | none =>
  cases hnumber : number? cs with
  | some l => exact number?_admitted hnumber
  | none =>
  cases hvar : var? cs with
  | some l => exact var?_admitted hvar
  | none =>
  cases hident : ident? cs with
  | some l => exact ident?_admitted hkeyword hvar hident
  | none =>
    unfold comment?
    split
    · rintro kind ⟨⟩
    · rintro kind ⟨⟩
      trivial

/-- All lexemes of a source text are admitted. -/
theorem scan_admitted {column inside : Nat} {cs : List Char} :
    ∀ found ∈ scan column inside cs, found.2.Admitted := by
  induction cs generalizing column inside with
  | nil =>
    intro found hfound
    cases inside <;> simp [scan] at hfound
  | cons c cs ih =>
    cases inside with
    | succ inside => exact ih
    | zero =>
      intro found hfound
      rw [scan] at hfound
      split at hfound
      · exact ih found hfound
      · rcases List.mem_cons.1 hfound with rfl | hrest
        · exact first_admitted _
        · exact ih found hrest

end Lexeme

/-- Every token of a source text is admitted by the alphabet of source texts. -/
theorem Token.ofSource_admitted (source : String) :
    ∀ t ∈ Token.ofSource source, Alphabet.source.Admits t.kind := by
  intro t ht
  obtain ⟨numbered, _, ht⟩ := List.mem_flatMap.1 ht
  obtain ⟨found, hfound, htoken⟩ := List.mem_filterMap.1 ht
  unfold Token.ofLexeme? at htoken
  obtain ⟨kind, hkind, rfl⟩ := Option.map_eq_some_iff.1 htoken
  exact Lexeme.scan_admitted found hfound kind hkind

/-- Every program that is read from a source text is well formed over its alphabet. -/
theorem Program.wellFormed_source {source : String} {p : Program}
    (h : (Reading.ofTokens (Token.ofSource source)).program = some p) :
    p.WellFormed Alphabet.source :=
  Reading.wellFormed_of_program_eq_some (Token.ofSource_admitted source) h

end Zed
