import Zed.Proofs.Token.Alphabet
import Zed.Proofs.Token.Cut

/-!
# Tokens written out

Tokens that are written one after the other with single spaces between them are found again, kind by
kind and lexeme by lexeme (`Token.ofSource_print`). A space ends every lexeme, and no class that is
tried earlier takes a lexeme away from its own.
-/

set_option autoImplicit false

namespace Zed

/-- Digits, or digits with a point among them. -/
inductive IsNumeral : List Char → Prop
  | whole {digits : List Char} :
      digits ≠ [] → (∀ d ∈ digits, d.isDigit = true) → IsNumeral digits
  | point {digits places : List Char} :
      digits ≠ [] → (∀ d ∈ digits, d.isDigit = true) →
      places ≠ [] → (∀ d ∈ places, d.isDigit = true) → IsNumeral (digits ++ '.' :: places)

/-- A numeral starts with a digit. -/
theorem IsNumeral.exists_cons {chars : List Char} (h : IsNumeral chars) :
    ∃ c cs, chars = c :: cs ∧ c.isDigit = true := by
  cases h with
  | whole hne hdigits =>
    obtain ⟨c, cs, rfl⟩ := List.exists_cons_of_ne_nil hne
    exact ⟨c, cs, rfl, hdigits c (List.mem_cons_self ..)⟩
  | point hne hdigits _ _ =>
    obtain ⟨c, cs, rfl⟩ := List.exists_cons_of_ne_nil hne
    exact ⟨c, _, rfl, hdigits c (List.mem_cons_self ..)⟩

/-- A numeral has no line break in it. -/
theorem IsNumeral.flat {chars : List Char} (h : IsNumeral chars) : '\n' ∉ chars := by
  intro hmem
  cases h with
  | whole _ hdigits => exact absurd (hdigits _ hmem) (by decide)
  | point _ hdigits _ hplaces =>
    rw [List.mem_append, List.mem_cons] at hmem
    rcases hmem with hmem | hmem | hmem
    · exact absurd (hdigits _ hmem) (by decide)
    · cases hmem
    · exact absurd (hplaces _ hmem) (by decide)

namespace Token.Kind

/-- The lexeme that a token of this kind is written as. -/
def spelling : Kind → String
  | .keyword word => word.spelling
  | .symbol sign => sign.spelling
  | .number spelling => spelling
  | .text body => "\"" ++ body ++ "\""
  | .var name => name
  | .ident name => name
  | .other lexeme => lexeme

/-- The payload is one that a source text can spell. -/
def Printable : Kind → Prop
  | .keyword _ => True
  | .symbol _ => True
  | .number spelling => IsNumeral spelling.toList
  | .text body => Alphabet.source.body body
  | .var name => Alphabet.source.name name
  | .ident name => Alphabet.source.ident name
  | .other _ => False

end Token.Kind

namespace Lexeme

/-- A lexeme is over: the line ends or there is a space. -/
inductive Spaced : List Char → Prop
  | nil : Spaced []
  | cons (cs : List Char) : Spaced (' ' :: cs)

/-- A word ends in front of a blank. -/
theorem Spaced.endsWord {rest : List Char} (h : Spaced rest) : endsWord rest = true := by
  cases h <;> rfl

section Runs

variable {p : Char → Bool} {word rest : List Char}

/-- A run ends where its word does. -/
theorem takeWhile_run (hp : ∀ c, p c = true → isWordChar c = true) (hword : ∀ c ∈ word, p c = true)
    (hrest : endsWord rest = true) : (word ++ rest).takeWhile p = word := by
  rw [List.takeWhile_append_of_pos hword, takeWhile_eq_nil_of_endsWord hp hrest, List.append_nil]

theorem dropWhile_run (hp : ∀ c, p c = true → isWordChar c = true) (hword : ∀ c ∈ word, p c = true)
    (hrest : endsWord rest = true) : (word ++ rest).dropWhile p = rest := by
  have hsplit := (word ++ rest).takeWhile_append_dropWhile (p := p)
  rw [takeWhile_run hp hword hrest] at hsplit
  exact List.append_cancel_left hsplit

end Runs

/-! ## Classes that do not apply -/

/-- A word is a keyword if it is spelled as one. -/
theorem keyword?_word {word rest : List Char} (hword : ∀ c ∈ word, isWordChar c = true)
    (hrest : endsWord rest = true) :
    keyword? (word ++ rest)
      = (Keyword.ofSpelling? (String.ofList word)).map fun k => ⟨some (.keyword k), word⟩ := by
  rw [keyword?, takeWhile_run (fun _ hc => hc) hword hrest]

theorem keyword?_cons {c : Char} {cs : List Char} (hc : isWordChar c = false) :
    keyword? (c :: cs) = none := by
  rw [keyword?, List.takeWhile_cons_of_neg (by rw [hc]; decide)]
  rfl

/-- A word that has what no keyword has is none. -/
theorem ofSpelling?_eq_none {p : String → Bool} {word : String}
    (hp : ∀ k : Keyword, p k.spelling = false) (h : p word = true) :
    Keyword.ofSpelling? word = none := by
  rw [Keyword.ofSpelling?, List.find?_eq_none]
  intro k _ hk
  rw [← eq_of_beq hk, hp k] at h
  cases h

/-- No symbol begins with a character of a word or with a quote. -/
theorem symbol?_cons {c : Char} {cs : List Char} (hc : isWordChar c = true ∨ c = '"') :
    symbol? (c :: cs) = none := by
  rw [symbol?, Option.map_eq_none_iff, List.find?_eq_none]
  intro sign _ hprefix
  have hfirst : ∀ d ds, sign.spelling.toList = d :: ds → isWordChar d = false ∧ d ≠ '"' := by
    rintro d ds hchars
    cases sign <;> cases hchars <;> decide
  cases hchars : sign.spelling.toList with
  | nil => cases sign <;> cases hchars
  | cons d ds =>
    rw [hchars, List.isPrefixOf_iff_prefix, List.cons_prefix_cons] at hprefix
    obtain ⟨rfl, _⟩ := hprefix
    obtain ⟨hword, hquote⟩ := hfirst d ds hchars
    rcases hc with hc | hc
    · rw [hword] at hc
      cases hc
    · exact hquote hc

/-- A text starts with a quote. -/
theorem text?_of_ne {c : Char} {cs : List Char} (hc : c ≠ '"') : text? (c :: cs) = none := by
  rw [text?.eq_def]
  split
  · next heq =>
    cases heq
    exact absurd rfl hc
  · rfl

theorem text?_cons {c : Char} {cs : List Char} (hc : isWordChar c = true) :
    text? (c :: cs) = none := by
  apply text?_of_ne
  rintro rfl
  cases hc

/-- A numeral starts with a digit. -/
theorem number?_cons {c : Char} {cs : List Char} (hc : c.isDigit = false) :
    number? (c :: cs) = none := by
  rw [number?, List.takeWhile_cons_of_neg (by rw [hc]; decide)]
  rfl

/-! ## Classes that apply -/

section First

variable {rest : List Char}

/-- A keyword in front of a blank is read as that keyword. -/
theorem first_keyword (word : Keyword) (h : Spaced rest) :
    first (word.spelling.toList ++ rest) = ⟨some (.keyword word), word.spelling.toList⟩ := by
  have hchars : word.spelling.toList.all isWordChar = true := by cases word <;> rfl
  have hread : Keyword.ofSpelling? word.spelling = some word := by cases word <;> rfl
  rw [first, keyword?_word (List.all_eq_true.1 hchars) h.endsWord, String.ofList_toList, hread]
  rfl

/-- A symbol in front of a blank is read as that symbol. No longer symbol can be meant. -/
theorem first_symbol (sign : Symbol) (h : Spaced rest) :
    first (sign.spelling.toList ++ rest) = ⟨some (.symbol sign), sign.spelling.toList⟩ := by
  -- A sign that begins a longer one is not taken for it: behind it stands a space or nothing.
  cases h <;> cases sign <;> rfl

/-- A text in quotes is read as that text, whatever follows. -/
theorem first_text {body : String} (hbody : Alphabet.source.body body) :
    first (("\"" ++ body ++ "\"").toList ++ rest)
      = ⟨some (.text body), ("\"" ++ body ++ "\"").toList⟩ := by
  have hbody : ∀ c ∈ body.toList, isBodyChar c = true := List.all_eq_true.1 hbody
  have hchars : ("\"" ++ body ++ "\"").toList = '"' :: body.toList ++ ['"'] := by
    rw [String.toList_append, String.toList_append]
    rfl
  have htake : (body.toList ++ '"' :: rest).takeWhile isBodyChar = body.toList := by
    rw [List.takeWhile_append_of_pos hbody, List.takeWhile_cons_of_neg (by decide), List.append_nil]
  have hdrop : (body.toList ++ '"' :: rest).dropWhile isBodyChar = '"' :: rest := by
    rw [List.dropWhile_append_of_pos hbody, List.dropWhile_cons_of_neg (by decide)]
  have htext : text? ('"' :: (body.toList ++ '"' :: rest))
      = some ⟨some (.text body), '"' :: body.toList ++ ['"']⟩ := by
    rw [text?, hdrop, htake, String.ofList_toList]
    rfl
  rw [hchars, List.append_assoc, List.cons_append, List.singleton_append, first,
    keyword?_cons (by decide), symbol?_cons (.inr rfl), htext]
  rfl

theorem number?_run {digits spelling : List Char} (hne : digits ≠ [])
    (hdigits : ∀ d ∈ digits, d.isDigit = true) (hrest : endsWord rest = true)
    (hspelling : digits ++ (fraction? rest).getD [] = spelling) :
    number? (digits ++ rest) = some ⟨some (.number (String.ofList spelling)), spelling⟩ := by
  have hp : ∀ c, c.isDigit = true → isWordChar c = true := fun _ hc => isWordChar_of_isDigit hc
  rw [number?, takeWhile_run hp hdigits hrest, dropWhile_run hp hdigits hrest]
  subst hspelling
  cases fraction? rest with
  | none => simp only [if_neg hne, hrest, if_true, Option.getD_none, List.append_nil]
  | some fraction => simp only [if_neg hne, Option.getD_some]

/-- A point and its digits are read as a fraction. -/
theorem fraction?_run {places : List Char} (hne : places ≠ [])
    (hplaces : ∀ d ∈ places, d.isDigit = true) (hrest : endsWord rest = true) :
    fraction? ('.' :: (places ++ rest)) = some ('.' :: places) := by
  have hp : ∀ c, c.isDigit = true → isWordChar c = true := fun _ hc => isWordChar_of_isDigit hc
  rw [fraction?, takeWhile_run hp hplaces hrest, dropWhile_run hp hplaces hrest]
  simp only [ne_eq, hne, not_false_eq_true, hrest, and_self, if_true]

/-- What begins with digits is no keyword, symbol or string. -/
theorem first_digits {digits : List Char} {l : Lexeme} (hne : digits ≠ [])
    (hdigits : ∀ d ∈ digits, d.isDigit = true) (hrest : endsWord rest = true)
    (h : number? (digits ++ rest) = some l) : first (digits ++ rest) = l := by
  have hword : ∀ c ∈ digits, isWordChar c = true := fun c hc => isWordChar_of_isDigit (hdigits c hc)
  obtain ⟨c, cs, rfl⟩ := List.exists_cons_of_ne_nil hne
  have hkeyword : Keyword.ofSpelling? (String.ofList (c :: cs)) = none := by
    refine ofSpelling?_eq_none (p := fun word => word.toList.head?.any Char.isDigit) ?_ ?_
    · intro k
      cases k <;> decide
    · rw [String.toList_ofList, List.head?_cons, Option.any_some]
      exact hdigits c (List.mem_cons_self ..)
  have hc := hword c (List.mem_cons_self ..)
  rw [first, h, keyword?_word hword hrest, hkeyword, List.cons_append, symbol?_cons (.inl hc),
    text?_cons hc]
  rfl

/-- A numeral in front of a blank is read as that numeral. -/
theorem first_number {spelling : String} (hspelling : IsNumeral spelling.toList) (h : Spaced rest) :
    first (spelling.toList ++ rest) = ⟨some (.number spelling), spelling.toList⟩ := by
  generalize hchars : spelling.toList = chars at hspelling
  have hstring : String.ofList chars = spelling := by rw [← hchars, String.ofList_toList]
  cases hspelling with
  | whole hne hdigits =>
    apply first_digits hne hdigits h.endsWord
    have hfraction : fraction? rest = none := by cases h <;> rfl
    rw [number?_run hne hdigits h.endsWord (by rw [hfraction, Option.getD_none, List.append_nil]),
      hstring]
  | point hne hdigits hplacesne hplaces =>
    rw [List.append_assoc, List.cons_append]
    apply first_digits hne hdigits rfl
    have hfraction := fraction?_run hplacesne hplaces h.endsWord
    rw [number?_run hne hdigits rfl (by rw [hfraction, Option.getD_some]), hstring]

theorem isDigit_eq_false_of_isIdentChar {c : Char} (h : isIdentChar c = true) :
    c.isDigit = false := by
  rw [← Bool.not_eq_true]
  intro hdigit
  rw [isIdentChar_eq_false_of_isDigit hdigit] at h
  cases h

/-- What begins with a letter or an underscore is no keyword, symbol, string or number, unless its
whole word is a keyword. -/
theorem first_word {c : Char} {cs : List Char} (hc : isIdentChar c = true)
    (hcs : ∀ d ∈ cs, isWordChar d = true) (hrest : endsWord rest = true)
    (hkeyword : Keyword.ofSpelling? (String.ofList (c :: cs)) = none) :
    first (c :: cs ++ rest) = (var? (c :: cs ++ rest) <|> ident? (c :: cs ++ rest)
      <|> comment? (c :: cs ++ rest)).getD (other (c :: cs ++ rest)) := by
  have hword := isWordChar_of_isIdentChar hc
  rw [first, keyword?_word (List.forall_mem_cons.2 ⟨hword, hcs⟩) hrest, hkeyword, List.cons_append,
    symbol?_cons (.inl hword), text?_cons hword,
    number?_cons (isDigit_eq_false_of_isIdentChar hc)]
  rfl

/-- A variable in front of a blank is read as that variable. Its name is no keyword. -/
theorem first_var {name : String} (hname : Alphabet.source.name name) (h : Spaced rest) :
    first (name.toList ++ rest) = ⟨some (.var name), name.toList⟩ := by
  have hkeyword : Keyword.ofSpelling? name = none :=
    ofSpelling?_eq_none (p := Variable.isName) (by intro k; cases k <;> decide) hname
  obtain ⟨c, digits, hchars, hupper, hdigits⟩ := Variable.isName_iff.1 hname
  have hstring : String.ofList (c :: digits) = name := by rw [← hchars, String.ofList_toList]
  have hp : ∀ c, c.isDigit = true → isWordChar c = true := fun _ hc => isWordChar_of_isDigit hc
  have hident : isIdentChar c = true := by rw [isIdentChar_eq, hupper, Bool.true_or, Bool.true_or]
  have hvar : var? (c :: digits ++ rest) = some ⟨some (.var name), c :: digits⟩ := by
    rw [List.cons_append, var?, takeWhile_run hp hdigits h.endsWord,
      dropWhile_run hp hdigits h.endsWord]
    simp only [hupper, h.endsWord, and_self, if_true, hstring]
  rw [hchars, first_word hident (fun d hd => hp d (hdigits d hd)) h.endsWord
    (by rw [hstring, hkeyword]), hvar]
  rfl

/-- A name in front of a blank is read as that name, if it is neither a keyword nor a variable. -/
theorem first_ident {name : String} (hname : Alphabet.source.ident name) (h : Spaced rest) :
    first (name.toList ++ rest) = ⟨some (.ident name), name.toList⟩ := by
  obtain ⟨hne, hall, hkeyword, hvariable⟩ := hname
  have hletters := List.all_eq_true.1 hall
  have hp : ∀ c, isIdentChar c = true → isWordChar c = true :=
    fun _ hc => isWordChar_of_isIdentChar hc
  obtain ⟨c, cs, hchars⟩ := List.exists_cons_of_ne_nil hne
  have hstring : String.ofList (c :: cs) = name := by rw [← hchars, String.ofList_toList]
  rw [hchars, List.forall_mem_cons] at hletters
  obtain ⟨hc, hcs⟩ := hletters
  have hvar : var? (c :: cs ++ rest) = none := by
    rw [List.cons_append, var?, if_neg]
    rintro ⟨hupper, hend⟩
    cases cs with
    | nil =>
      -- A capital letter alone would be a variable.
      rw [Variable.isName, hchars] at hvariable
      simp [hupper] at hvariable
    | cons d ds =>
      have hd := hcs d (List.mem_cons_self ..)
      have hdigit := isDigit_eq_false_of_isIdentChar hd
      rw [List.cons_append, List.dropWhile_cons_of_neg (by rw [hdigit]; decide), endsWord,
        List.head?_cons, Option.any_some, hp d hd] at hend
      cases hend
  have hident : ident? (c :: cs ++ rest) = some ⟨some (.ident name), c :: cs⟩ := by
    have hrun : ∀ d ∈ c :: cs, isIdentChar d = true := List.forall_mem_cons.2 ⟨hc, hcs⟩
    rw [ident?, takeWhile_run hp hrun h.endsWord, dropWhile_run hp hrun h.endsWord]
    simp only [ne_eq, reduceCtorEq, not_false_eq_true, h.endsWord, and_self, if_true, hstring]
  rw [hchars, first_word hc (fun d hd => hp d (hcs d hd)) h.endsWord (by rw [hstring, hkeyword]),
    hvar, hident]
  rfl

/-- A printable kind is what its spelling is found as. -/
theorem first_printable {k : Token.Kind} (hk : k.Printable) (h : Spaced rest) :
    first (k.spelling.toList ++ rest) = ⟨some k, k.spelling.toList⟩ := by
  cases k with
  | keyword word => exact first_keyword word h
  | symbol sign => exact first_symbol sign h
  | number spelling => exact first_number hk h
  | text body => exact first_text hk
  | var name => exact first_var hk h
  | ident name => exact first_ident hk h
  | other lexeme => exact absurd hk id

end First

/-! ## The characters of a spelling -/

theorem isBlank_eq_false_of_isWordChar {c : Char} (h : isWordChar c = true) :
    Text.isBlank c = false := by
  have hclasses : isWordChar c = (c.isUpper || c.isLower || c.isDigit || decide (c = '_')) := rfl
  rw [hclasses] at h
  have hrange : '!'.toNat ≤ c.toNat ∧ c.toNat ≤ '~'.toNat := by
    unfold Char.isUpper Char.isLower Char.isDigit at h
    simp only [Bool.or_eq_true, Bool.and_eq_true, decide_eq_true_eq, UInt32.le_iff_toNat_le,
      ge_iff_le] at h
    rcases h with ((⟨hlow, hhigh⟩ | ⟨hlow, hhigh⟩) | ⟨hlow, hhigh⟩) | rfl
    · exact ⟨Nat.le_trans (by decide) hlow, Nat.le_trans hhigh (by decide)⟩
    · exact ⟨Nat.le_trans (by decide) hlow, Nat.le_trans hhigh (by decide)⟩
    · exact ⟨Nat.le_trans (by decide) hlow, Nat.le_trans hhigh (by decide)⟩
    · decide
  have hedges : ∀ r ∈ Text.blankRanges, r.2 < '!'.toNat ∨ '~'.toNat < r.1 := by decide
  rw [Text.isBlank, List.any_eq_false]
  intro range hrange'
  have hedge := hedges range hrange'
  rw [Bool.and_eq_true, decide_eq_true_eq, decide_eq_true_eq]
  omega

end Lexeme

namespace Token.Kind.Printable

variable {k : Token.Kind}

/-- A spelling begins with a character that is not blank. -/
theorem exists_cons (h : k.Printable) :
    ∃ c cs, k.spelling.toList = c :: cs ∧ Text.isBlank c = false := by
  cases k with
  | keyword word => cases word <;> exact ⟨_, _, rfl, by decide⟩
  | symbol sign => cases sign <;> exact ⟨_, _, rfl, by decide⟩
  | number spelling =>
    obtain ⟨c, cs, hchars, hc⟩ := IsNumeral.exists_cons h
    exact ⟨c, cs, hchars, Lexeme.isBlank_eq_false_of_isWordChar (Lexeme.isWordChar_of_isDigit hc)⟩
  | text body =>
    refine ⟨'"', body.toList ++ ['"'], ?_, by decide⟩
    show ("\"" ++ body ++ "\"").toList = _
    rw [String.toList_append, String.toList_append]
    rfl
  | var name =>
    obtain ⟨c, digits, hchars, hupper, _⟩ := Variable.isName_iff.1 h
    have hident : Lexeme.isIdentChar c = true := by
      rw [Lexeme.isIdentChar_eq, hupper, Bool.true_or, Bool.true_or]
    exact ⟨c, digits, hchars,
      Lexeme.isBlank_eq_false_of_isWordChar (Lexeme.isWordChar_of_isIdentChar hident)⟩
  | ident name =>
    obtain ⟨c, cs, hchars⟩ := List.exists_cons_of_ne_nil h.1
    have hident := List.all_eq_true.1 h.2.1 c (by rw [hchars]; exact List.mem_cons_self ..)
    exact ⟨c, cs, hchars,
      Lexeme.isBlank_eq_false_of_isWordChar (Lexeme.isWordChar_of_isIdentChar hident)⟩
  | other lexeme => exact absurd h id

/-- What is printed for a kind is on one line. -/
theorem flat (h : k.Printable) : '\n' ∉ k.spelling.toList := by
  intro hmem
  cases k with
  | keyword word => revert hmem; cases word <;> decide
  | symbol sign => revert hmem; cases sign <;> decide
  | number spelling => exact IsNumeral.flat h hmem
  | text body =>
    change '\n' ∈ ("\"" ++ body ++ "\"").toList at hmem
    rw [String.toList_append, String.toList_append, List.mem_append, List.mem_append] at hmem
    rcases hmem with (hmem | hmem) | hmem
    · exact absurd hmem (by decide)
    · exact absurd (List.all_eq_true.1 h _ hmem) (by decide)
    · exact absurd hmem (by decide)
  | var name =>
    obtain ⟨c, digits, hchars, hupper, hdigits⟩ := Variable.isName_iff.1 h
    change '\n' ∈ name.toList at hmem
    rw [hchars, List.mem_cons] at hmem
    rcases hmem with rfl | hmem
    · exact absurd hupper (by decide)
    · exact absurd (hdigits _ hmem) (by decide)
  | ident name => exact absurd (List.all_eq_true.1 h.2.1 _ hmem) (by decide)
  | other lexeme => exact h

end Token.Kind.Printable

namespace Text

/-- A text without a line break has one part. -/
theorem segments_of_flat {text : List Char} (h : '\n' ∉ text) : segments text = [text] := by
  induction text with
  | nil => rfl
  | cons c cs ih =>
    rw [List.mem_cons, not_or] at h
    rw [segments_cons, ih h.2, cutBefore, if_neg (Ne.symm h.1)]
    rfl

/-- A text without line feeds is one line. -/
theorem lines_of_flat {text : List Char} (h : '\n' ∉ text) (hne : text ≠ []) :
    lines text = [text] := by
  rw [lines, segments_of_flat h, linesOfSegments, if_neg hne]

end Text

/-! ## Texts of tokens -/

namespace Token

/-- The spellings with single spaces between them. -/
def print (ks : List Kind) : String :=
  " ".intercalate (ks.map Kind.spelling)

/-- Tokens are printed with one blank between them. -/
theorem print_cons_cons (k l : Kind) (ks : List Kind) :
    (print (k :: l :: ks)).toList = k.spelling.toList ++ ' ' :: (print (l :: ks)).toList := by
  rw [print, List.map_cons, List.map_cons, String.intercalate_cons_cons, String.toList_append,
    String.toList_append, List.append_assoc]
  rfl

theorem print_singleton (k : Kind) : print [k] = k.spelling := by
  rw [print, List.map_singleton, String.intercalate_singleton]

/-- What is printed for a kind is scanned as one lexeme of that kind. -/
theorem scan_spelling {k : Kind} {rest : List Char} (column : Nat) (hk : k.Printable)
    (hrest : Lexeme.Spaced rest) :
    Lexeme.scan column 0 (k.spelling.toList ++ rest)
      = (column, ⟨some k, k.spelling.toList⟩)
        :: Lexeme.scan (column + k.spelling.toList.length) 0 rest := by
  have hfirst := Lexeme.first_printable hk hrest
  obtain ⟨c, cs, hchars, hblank⟩ := hk.exists_cons
  rw [hchars, List.cons_append] at hfirst ⊢
  rw [Lexeme.scan_cons_of_not_blank hblank, hfirst, ← List.cons_append, List.drop_left]

/-- Scanning a text of printable tokens gives their kinds and their spellings. -/
theorem scan_print {ks : List Kind} (h : ∀ k ∈ ks, k.Printable) (column : Nat) :
    (Lexeme.scan column 0 (print ks).toList).map Prod.snd
      = ks.map fun k => ⟨some k, k.spelling.toList⟩ := by
  induction ks generalizing column with
  | nil => rfl
  | cons k ks ih =>
    obtain ⟨hk, hks⟩ := List.forall_mem_cons.1 h
    cases ks with
    | nil =>
      have hscan := scan_spelling column hk .nil
      rw [List.append_nil] at hscan
      rw [print_singleton, hscan, Lexeme.scan]
      rfl
    | cons l ls =>
      -- The space ends the spelling of `k` and is then skipped as a blank.
      rw [print_cons_cons, scan_spelling column hk (.cons _), Lexeme.scan_cons_of_blank (by decide),
        List.map_cons, ih hks]
      rfl

/-- What is printed is on one line. -/
theorem flat_print {ks : List Kind} (h : ∀ k ∈ ks, k.Printable) : '\n' ∉ (print ks).toList := by
  induction ks with
  | nil => decide
  | cons k ks ih =>
    obtain ⟨hk, hks⟩ := List.forall_mem_cons.1 h
    cases ks with
    | nil =>
      rw [print_singleton]
      exact hk.flat
    | cons l ls =>
      rw [print_cons_cons, List.mem_append, List.mem_cons, not_or, not_or]
      exact ⟨hk.flat, by decide, ih hks⟩

/-- A text of printable tokens is one line. -/
theorem ofSource_print_eq {ks : List Kind} (h : ∀ k ∈ ks, k.Printable) :
    ofSource (print ks) = ofLine 1 (print ks).toList := by
  by_cases hempty : (print ks).toList = []
  · rw [ofSource, hempty]
    rfl
  · rw [ofSource, Text.lines_of_flat (flat_print h) hempty, List.zipIdx_singleton,
      List.flatMap_singleton]

/-- Printable tokens with single spaces between them are found again. -/
theorem ofSource_print {ks : List Kind} (h : ∀ k ∈ ks, k.Printable) :
    (ofSource (print ks)).map Token.kind = ks ∧
      (ofSource (print ks)).map Token.lexeme = ks.map Kind.spelling := by
  have hscan := scan_print h 0
  have hfound : ∀ {α : Type} (f : Token → α) (g : Lexeme → Option α),
      (∀ x, (ofLexeme? 1 x).map f = g x.2) →
      (ofSource (print ks)).map f
        = (ks.map fun k => (⟨some k, k.spelling.toList⟩ : Lexeme)).filterMap g := by
    intro α f g hfg
    rw [ofSource_print_eq h, ofLine, List.map_filterMap, ← hscan, List.filterMap_map]
    exact congrArg (List.filterMap · _) (funext hfg)
  constructor
  · rw [hfound Token.kind Lexeme.kind
      fun x => by rw [ofLexeme?, Option.map_map]; exact Option.map_id' .., List.filterMap_map]
    exact List.filterMap_some
  · rw [hfound Token.lexeme (fun l => l.kind.map fun _ => String.ofList l.chars)
      fun x => by rw [ofLexeme?, Option.map_map]; rfl, List.filterMap_map, ← List.filterMap_eq_map]
    exact congrArg (List.filterMap · ks) (funext fun k => congrArg some String.ofList_toList)

end Token

end Zed
