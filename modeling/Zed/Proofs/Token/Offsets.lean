import Zed.Proofs.Token.Bytes

/-!
# Lexemes by byte offset

The classes of lexemes once more, now for a line in UTF-8 and a byte offset. Each class has a
function that reads the line from the offset on by checked accesses only. Its result is nested:
`none` stands for an access that is not allowed, `some none` for an offset where no lexeme of the
class begins. The classes of whole words look to the left too and match only where a word begins
(`atBoundary?`), whereas `Lexeme.keyword?` and its siblings never see what stands before.

`classify?_size` is the main statement. At an offset where a character begins, and where no
word is cut, no access fails, and what is found is `Lexeme.first` of the rest of the line,
with its size in bytes.
-/

set_option autoImplicit false

namespace Zed.Bytes

/-- The kind of a lexeme, unless it is a comment, and the number of its bytes. -/
abbrev Found :=
  Option Token.Kind × Nat

/-- A lexeme as it is found at an offset. -/
def measured (l : Lexeme) : Found :=
  (l.kind, size l.chars)

/-! ## One class at a time -/

/-- Looks for something only where a word begins or ends. -/
def atBoundary? {α : Type} (row : List Char) (start : Nat) (look : Option (Option α)) :
    Option (Option α) := do
  if ← isBoundary? row start then look else return none

/-- Keeps a length if a word begins or ends behind it. -/
def ending? (row : List Char) (start length : Nat) : Option (Option Nat) := do
  if ← isBoundary? row (start + length) then return some length else return none

/-- The bytes of a match become the spelling of a kind. -/
def spelled? (kind : String → Token.Kind) (row : List Char) (start : Nat)
    (found : Option (Option Nat)) :
    Option (Option Found) := do
  match ← found with
  | some length =>
    let chars ← slice? row start (start + length)
    return some (some (kind (String.ofList chars)), length)
  | none => return none

/-- A keyword is a whole word. -/
def keyword? (row : List Char) (start : Nat) : Option (Option Found) :=
  atBoundary? row start do
    let length ← runLength? row start isWordByte
    let word ← slice? row start (start + length)
    return (Keyword.ofSpelling? (String.ofList word)).map fun k => (some (.keyword k), length)

/-- The first symbol, in matching order, that begins at the offset. -/
def symbol? (row : List Char) (start : Nat) : Option (Option Found) := do
  let rest ← tail? row start
  return (Symbol.all.find? fun s => s.spelling.toList.isPrefixOf rest).map fun s =>
    (some (.symbol s), size s.spelling.toList)

/-- The length of a string with its quotes. -/
def textLength? (row : List Char) (start : Nat) : Option (Option Nat) := do
  let opening ← byte? row start
  if opening = '"'.toUInt8 then
    let body ← runLength? row (start + 1) isBodyByte
    return if byte? row (start + 1 + body) = some '"'.toUInt8 then some (body + 2) else none
  else return none

/-- A string is known by what stands between its quotes. -/
def text? (row : List Char) (start : Nat) : Option (Option Found) := do
  match ← textLength? row start with
  | some length =>
    let body ← slice? row (start + 1) (start + length - 1)
    return some (some (.text (String.ofList body)), length)
  | none => return none

/-- The length of a number whose digits before the point are given, if it has a fraction. -/
def fractionLength? (row : List Char) (start whole : Nat) : Option (Option Nat) :=
  if byte? row (start + whole) = some '.'.toUInt8 then do
    let places ← runLength? row (start + whole + 1) isDigitByte
    if places = 0 then return none else ending? row start (whole + 1 + places)
  else return none

/-- The length of a number. -/
def numberLength? (row : List Char) (start : Nat) : Option (Option Nat) :=
  atBoundary? row start do
    let whole ← runLength? row start isDigitByte
    if whole = 0 then return none
    else match ← fractionLength? row start whole with
      | some length => return some length
      | none => ending? row start whole

/-- The length of a variable. -/
def varLength? (row : List Char) (start : Nat) : Option (Option Nat) :=
  atBoundary? row start do
    let capital ← byte? row start
    if isCapitalByte capital then
      let digits ← runLength? row (start + 1) isDigitByte
      ending? row start (1 + digits)
    else return none

/-- The length of an identifier. -/
def identLength? (row : List Char) (start : Nat) : Option (Option Nat) :=
  atBoundary? row start do
    let length ← runLength? row start isIdentByte
    if length = 0 then return none else ending? row start length

/-- A comment goes on to the end of its line. -/
def comment? (row : List Char) (start : Nat) : Option (Option Found) := do
  let rest ← tail? row start
  return if rest.head? = some '#' then some (none, size row - start) else none

/-- The number of bytes before the first blank. -/
def blankOffset? : List Char → Option Nat
  | [] => none
  | c :: cs => if Text.isBlank c then some 0 else (blankOffset? cs).map (c.utf8Size + ·)

/-- The length of what stands before the next blank. -/
def otherLength? (row : List Char) (start : Nat) : Option (Option Nat) := do
  let rest ← tail? row start
  return some ((blankOffset? rest).getD (size row - start))

/-! ## The first class that matches -/

/-- Looks for something else only if nothing is found. -/
def orElse? (found next : Option (Option Found)) : Option (Option Found) := do
  match ← found with
  | some result => return some result
  | none => next

/-- The kind of the lexeme that begins at an offset, and its length. -/
def classify? (row : List Char) (start : Nat) : Option Found := do
  let found ←
    orElse? (keyword? row start) <|
    orElse? (symbol? row start) <|
    orElse? (text? row start) <|
    orElse? (spelled? .number row start (numberLength? row start)) <|
    orElse? (spelled? .var row start (varLength? row start)) <|
    orElse? (spelled? .ident row start (identLength? row start)) <|
    orElse? (comment? row start) (spelled? .other row start (otherLength? row start))
  found

/-! ## At the beginning of a lexeme -/

open Lexeme (isWordChar endsWord OpensWord)

variable {before cs : List Char}

/-- Where no word is cut, looking only at boundaries loses nothing that begins with a character
of a word. -/
theorem atBoundary?_size {α : Type} {look : Option (Option α)} {found : Option α}
    (hopens : OpensWord (before ++ cs) before.length) (hidle : endsWord cs = true → found = none)
    (hlook : look = some found) : atBoundary? (before ++ cs) (size before) look = some found := by
  rw [atBoundary?, isBoundary?_eq_atBoundary, hlook]
  simp only [Option.bind_eq_bind, Option.bind_some]
  split
  · rfl
  · next hnot =>
    -- No boundary, so no word begins here.
    have hend : endsWord cs = true := by
      rw [endsWord, Bool.not_eq_true', Bool.eq_false_iff]
      intro hhead
      obtain ⟨c, hc, hword⟩ := (Option.any_eq_true ..).1 hhead
      refine hnot (hopens c ?_ hword)
      rw [List.getElem?_append_right (Nat.le_refl _), Nat.sub_self, ← List.head?_eq_getElem?, hc]
    rw [hidle hend]
    rfl

/-- Behind a character of a word, a boundary is the end of the word. -/
theorem ending?_size (before : List Char) {run : List Char}
    (hrun : run.getLast?.any isWordChar = true) (rest : List Char) :
    ending? (before ++ (run ++ rest)) (size before) (size run)
      = some (if endsWord rest then some (size run) else none) := by
  have hlast : (before ++ run).getLast?.any isWordChar = true := by
    obtain ⟨c, hc, hword⟩ := (Option.any_eq_true ..).1 hrun
    rw [List.getLast?_append, hc, Option.some_or, Option.any_some, hword]
  rw [ending?, ← List.append_assoc, ← size_append, isBoundary?_size, hlast, endsWord]
  cases rest.head?.any isWordChar <;> rfl

theorem any_getLast?_of_forall {run : List Char} (hne : run ≠ [])
    (hrun : ∀ c ∈ run, isWordChar c = true) :
    run.getLast?.any isWordChar = true := by
  rw [List.getLast?_eq_getLast_of_ne_nil hne, Option.any_some]
  exact hrun _ (List.getLast_mem hne)

theorem isWordChar_of_mem_takeWhile {p : Char → Bool} (hp : ∀ c, p c = true → isWordChar c = true) :
    ∀ c ∈ cs.takeWhile p, isWordChar c = true := fun c hc =>
  hp c (List.all_eq_true.1 List.all_takeWhile c hc)

/-- The end of a run of characters that words are made of. -/
theorem ending?_takeWhile {p : Char → Bool} (hp : ∀ c, p c = true → isWordChar c = true)
    (hne : cs.takeWhile p ≠ []) :
    ending? (before ++ cs) (size before) (size (cs.takeWhile p))
      = some (if endsWord (cs.dropWhile p) then some (size (cs.takeWhile p)) else none) := by
  have hlast := any_getLast?_of_forall hne (isWordChar_of_mem_takeWhile hp)
  have hending := ending?_size before hlast (cs.dropWhile p)
  rwa [List.takeWhile_append_dropWhile] at hending

/-- The byte behind a run is the first one of what follows. -/
theorem byte?_behind (before run rest : List Char) :
    byte? (before ++ (run ++ rest)) (size before + size run) = (ofChars rest).head? := by
  rw [← List.append_assoc, ← size_append, byte?_size]

/-- The length of a second run, right behind a first one. -/
theorem runLength?_behind {q : UInt8 → Bool} {p : Char → Bool} (h : Mirrors q p)
    (before run rest : List Char) :
    runLength? (before ++ (run ++ rest)) (size before + size run) q
      = some (size (rest.takeWhile p)) := by
  rw [← List.append_assoc, ← size_append, runLength?_size h]

/-- A lexeme that is spelled as it is written can be cut out by its length. -/
theorem spelled?_size (kind : String → Token.Kind) {found : Option Lexeme}
    {lengths : Option (Option Nat)} (hlengths : lengths = some (found.map fun l => size l.chars))
    (hfound : ∀ l, found = some l → l.chars <+: cs ∧ ∃ s : String, l = ⟨some (kind s), s.toList⟩) :
    spelled? kind (before ++ cs) (size before) lengths = some (found.map measured) := by
  rw [spelled?, hlengths]
  cases found with
  | none => rfl
  | some l =>
    obtain ⟨hhead, s, rfl⟩ := hfound l rfl
    simp only [Option.map_some, Option.bind_eq_bind, Option.bind_some, slice?_size before hhead,
      String.ofList_toList]
    rfl

/-- The keyword at an offset is the keyword in front of the characters there. -/
theorem keyword?_size (hopens : OpensWord (before ++ cs) before.length) :
    keyword? (before ++ cs) (size before) = some ((Lexeme.keyword? cs).map measured) := by
  refine atBoundary?_size hopens (fun hend => ?_) ?_
  · rw [Lexeme.keyword?, Lexeme.takeWhile_eq_nil_of_endsWord (fun _ hc => hc) hend]
    rfl
  · rw [runLength?_size isWordByte_mirrors, Lexeme.keyword?, Option.map_map]
    simp only [Option.bind_eq_bind, Option.bind_some, slice?_size before (List.takeWhile_prefix _)]
    rfl

/-- The symbol at an offset is the symbol in front of the characters there. -/
theorem symbol?_size :
    symbol? (before ++ cs) (size before) = some ((Lexeme.symbol? cs).map measured) := by
  rw [symbol?, tail?_size, Lexeme.symbol?, Option.map_map]
  rfl

section Text

open Lexeme (isBodyChar)

theorem size_quoted (body : List Char) : size ('"' :: body ++ ['"']) = size body + 2 := by
  have hquote : size ['"'] = 1 := rfl
  rw [List.cons_append, ← List.singleton_append, size_append, size_append, hquote]
  omega

/-- Where a quote stands, a string has a length exactly if another quote follows its body. -/
theorem textLength?_quote :
    textLength? (before ++ '"' :: cs) (size before)
      = some (if (cs.dropWhile isBodyChar).head?.any (· == '"')
        then some (size (cs.takeWhile isBodyChar) + 2) else none) := by
  have hopening : byte? (before ++ '"' :: cs) (size before) = some '"'.toUInt8 := by
    rw [byte?_size, head?_ofChars_eq_iff (by decide)]
    rfl
  have hbody : runLength? (before ++ '"' :: cs) (size before + 1) isBodyByte
      = some (size (cs.takeWhile isBodyChar)) :=
    runLength?_behind isBodyByte_mirrors before ['"'] cs
  have hclosing : byte? (before ++ '"' :: cs) (size before + 1 + size (cs.takeWhile isBodyChar))
      = (ofChars (cs.dropWhile isBodyChar)).head? := by
    have hbehind := byte?_behind before ('"' :: cs.takeWhile isBodyChar) (cs.dropWhile isBodyChar)
    rwa [List.cons_append, List.takeWhile_append_dropWhile, size_cons, ← Nat.add_assoc] at hbehind
  have hquote := head?_ofChars_eq_iff (d := '"') (by decide) (cs.dropWhile isBodyChar)
  rw [textLength?, hopening]
  simp only [Option.bind_eq_bind, Option.bind_some, if_true, hbody, hclosing, hquote,
    Option.any_eq_true, beq_iff_eq, exists_eq_right]
  rfl

/-- No string begins with another character. -/
theorem textLength?_of_ne {c : Char} (hc : c ≠ '"') :
    textLength? (before ++ c :: cs) (size before) = some none := by
  obtain ⟨b, bs, hbytes⟩ := exists_byte c
  have hopening : byte? (before ++ c :: cs) (size before) = some b := by
    rw [byte?_size, ofChars_cons, hbytes]
    rfl
  have hb : b ≠ '"'.toUInt8 := by
    intro heq
    rw [heq, byte?_size, head?_ofChars_eq_iff (by decide), List.head?_cons,
      Option.some_inj] at hopening
    exact hc hopening
  rw [textLength?, hopening]
  simp only [Option.bind_eq_bind, Option.bind_some, if_neg hb]
  rfl

/-- The text at an offset is the text in front of the characters there. -/
theorem text?_size (hne : cs ≠ []) :
    text? (before ++ cs) (size before) = some ((Lexeme.text? cs).map measured) := by
  obtain ⟨c, cs, rfl⟩ := List.exists_cons_of_ne_nil hne
  by_cases hc : c = '"'
  · subst hc
    -- Between the quotes, of one byte each, stands the body.
    have hslice : slice? (before ++ '"' :: cs) (size before + 1)
        (size before + (size (cs.takeWhile isBodyChar) + 2) - 1)
          = some (cs.takeWhile isBodyChar) := by
      have hpart := slice?_size (before ++ ['"']) (List.takeWhile_prefix isBodyChar (l := cs))
      have hquote : size (before ++ ['"']) = size before + 1 := size_append before ['"']
      rw [List.append_assoc, List.singleton_append, hquote] at hpart
      rw [← hpart]
      congr 1
      omega
    rw [text?, textLength?_quote, Lexeme.text?_quote]
    split
    · simp only [Option.bind_eq_bind, Option.bind_some, hslice, Option.map_some,
        measured, size_quoted]
      rfl
    · rfl
  · have hnone : Lexeme.text? (c :: cs) = none := by
      rw [Lexeme.text?.eq_def]
      split
      · next heq =>
        cases heq
        exact absurd rfl hc
      · rfl
    rw [text?, textLength?_of_ne hc, hnone]
    rfl

end Text

section Number

theorem fraction?_of_head?_ne (h : cs.head? ≠ some '.') : Lexeme.fraction? cs = none := by
  cases cs with
  | nil => rfl
  | cons c cs => exact Lexeme.fraction?_of_ne fun hc => h (congrArg some hc)

/-- A number has a fraction at its bytes exactly if it has one at its characters. -/
theorem fractionLength?_size (before whole rest : List Char) :
    fractionLength? (before ++ (whole ++ rest)) (size before) (size whole)
      = some ((Lexeme.fraction? rest).map fun fraction => size (whole ++ fraction)) := by
  have hpoint := head?_ofChars_eq_iff (d := '.') (by decide) rest
  rw [fractionLength?, byte?_behind]
  by_cases hhead : rest.head? = some '.'
  · obtain ⟨cs, rfl⟩ := List.head?_eq_some_iff.1 hhead
    have hplaces : runLength? (before ++ (whole ++ '.' :: cs))
        (size before + size whole + 1) isDigitByte
        = some (size (cs.takeWhile Char.isDigit)) := by
      have hbehind := runLength?_behind isDigitByte_mirrors before (whole ++ ['.']) cs
      rwa [List.append_assoc, List.singleton_append, size_append, ← Nat.add_assoc] at hbehind
    rw [if_pos (hpoint.2 hhead), Lexeme.fraction?]
    simp only [hplaces, Option.bind_eq_bind, Option.bind_some, size_eq_zero]
    by_cases hnil : cs.takeWhile Char.isDigit = []
    · rw [if_pos hnil, if_neg fun h => h.1 hnil]
      rfl
    · have hsize : size whole + 1 + size (cs.takeWhile Char.isDigit)
          = size (whole ++ '.' :: cs.takeWhile Char.isDigit) := by
        rw [size_append, size_cons, ← Nat.add_assoc]
        rfl
      have hlast : (whole ++ '.' :: cs.takeWhile Char.isDigit).getLast?.any isWordChar = true := by
        rw [List.append_cons, List.getLast?_append_of_ne_nil _ hnil]
        exact any_getLast?_of_forall hnil (isWordChar_of_mem_takeWhile
          fun _ => Lexeme.isWordChar_of_isDigit)
      have hending := ending?_size before hlast (cs.dropWhile Char.isDigit)
      rw [List.append_assoc, List.cons_append, List.takeWhile_append_dropWhile] at hending
      rw [if_neg hnil, hsize, hending]
      simp only [ne_eq, hnil, not_false_eq_true, true_and]
      split <;> rfl
  · rw [if_neg (mt hpoint.1 hhead), fraction?_of_head?_ne hhead]
    rfl

/-- The numeral at an offset is as long as the one in front of the characters there. -/
theorem numberLength?_size (hopens : OpensWord (before ++ cs) before.length) :
    numberLength? (before ++ cs) (size before)
      = some ((Lexeme.number? cs).map fun l => size l.chars) := by
  refine atBoundary?_size hopens (fun hend => ?_) ?_
  · rw [Lexeme.number?,
      Lexeme.takeWhile_eq_nil_of_endsWord (fun _ => Lexeme.isWordChar_of_isDigit) hend]
    rfl
  · rw [runLength?_size isDigitByte_mirrors, Lexeme.number?]
    simp only [Option.bind_eq_bind, Option.bind_some, size_eq_zero]
    split
    · rfl
    · next hwhole =>
      have hfraction :=
        fractionLength?_size before (cs.takeWhile Char.isDigit) (cs.dropWhile Char.isDigit)
      rw [List.takeWhile_append_dropWhile] at hfraction
      rw [hfraction, ending?_takeWhile (fun _ => Lexeme.isWordChar_of_isDigit) hwhole]
      cases Lexeme.fraction? (cs.dropWhile Char.isDigit) with
      | some fraction => rfl
      | none =>
        -- Without a fraction the digits alone have to be a whole word.
        simp only [Option.map_none, Option.bind_some]
        split <;> rfl

end Number

/-- The variable at an offset is as long as the one in front of the characters there. -/
theorem varLength?_size (hne : cs ≠ []) (hopens : OpensWord (before ++ cs) before.length) :
    varLength? (before ++ cs) (size before)
      = some ((Lexeme.var? cs).map fun l => size l.chars) := by
  obtain ⟨c, cs, rfl⟩ := List.exists_cons_of_ne_nil hne
  obtain ⟨b, bs, hbytes⟩ := exists_byte c
  have hfirst : byte? (before ++ c :: cs) (size before) = some b := by
    rw [byte?_size, ofChars_cons, hbytes]
    rfl
  have hcapital : isCapitalByte b = c.isUpper :=
    isCapitalByte_mirrors.eq_of_mem (hbytes ▸ List.mem_cons_self)
  refine atBoundary?_size hopens (fun hend => ?_) ?_
  · rw [Lexeme.var?, if_neg fun h => ?_]
    · rfl
    · rw [endsWord, List.head?_cons, Option.any_some, Lexeme.isWordChar_of_isUpper h.1] at hend
      cases hend
  · simp only [hfirst, Option.bind_eq_bind, Option.bind_some, hcapital, Lexeme.var?]
    cases hc : c.isUpper with
    | false => rfl
    | true =>
      -- A capital letter is one byte, so the digits begin at the next one.
      have hone : size [c] = 1 := by
        rw [size, ofChars_cons, (isCapitalByte_mirrors.accepted hc).1]
        rfl
      have hdigits := runLength?_behind isDigitByte_mirrors before [c] cs
      rw [hone, List.singleton_append] at hdigits
      have hsize : 1 + size (cs.takeWhile Char.isDigit)
          = size (c :: cs.takeWhile Char.isDigit) := by
        rw [← hone, ← size_append, List.singleton_append]
      have hword : ∀ d ∈ c :: cs.takeWhile Char.isDigit, isWordChar d = true :=
        List.forall_mem_cons.2 ⟨Lexeme.isWordChar_of_isUpper hc,
          isWordChar_of_mem_takeWhile fun _ => Lexeme.isWordChar_of_isDigit⟩
      have hending := ending?_size before (any_getLast?_of_forall (List.cons_ne_nil _ _) hword)
        (cs.dropWhile Char.isDigit)
      rw [List.cons_append, List.takeWhile_append_dropWhile] at hending
      simp only [if_true, hdigits, Option.bind_some, hsize, hending, true_and]
      split <;> rfl

/-- The name at an offset is as long as the one in front of the characters there. -/
theorem identLength?_size (hopens : OpensWord (before ++ cs) before.length) :
    identLength? (before ++ cs) (size before)
      = some ((Lexeme.ident? cs).map fun l => size l.chars) := by
  refine atBoundary?_size hopens (fun hend => ?_) ?_
  · rw [Lexeme.ident?,
      Lexeme.takeWhile_eq_nil_of_endsWord (fun _ => Lexeme.isWordChar_of_isIdentChar) hend]
    rfl
  · rw [runLength?_size isIdentByte_mirrors, Lexeme.ident?]
    simp only [Option.bind_eq_bind, Option.bind_some, size_eq_zero]
    split
    · next hname =>
      rw [if_neg fun h => h.1 hname]
      rfl
    · next hname =>
      rw [ending?_takeWhile (fun _ => Lexeme.isWordChar_of_isIdentChar) hname]
      simp only [ne_eq, hname, not_false_eq_true, true_and]
      split <;> rfl

theorem comment?_size :
    comment? (before ++ cs) (size before) = some ((Lexeme.comment? cs).map measured) := by
  rw [comment?, tail?_size, Lexeme.comment?]
  simp only [Option.bind_eq_bind, Option.bind_some, size_append, Nat.add_sub_cancel_left]
  split <;> rfl

/-- Up to the first blank, or up to the end if there is none. -/
theorem getD_blankOffset? (cs : List Char) :
    (blankOffset? cs).getD (size cs) = size (cs.takeWhile fun c => !Text.isBlank c) := by
  induction cs with
  | nil => rfl
  | cons c cs ih =>
    rw [blankOffset?, List.takeWhile_cons]
    cases Text.isBlank c with
    | true => rfl
    | false =>
      simp only [Bool.not_false, if_true, size_cons, ← ih, Bool.false_eq_true, if_false]
      cases blankOffset? cs <;> rfl

/-- What stands before the next blank is as long at the offset as in front of
the characters there. -/
theorem otherLength?_size :
    otherLength? (before ++ cs) (size before)
      = some ((some (Lexeme.other cs)).map fun l => size l.chars) := by
  rw [otherLength?, tail?_size]
  simp only [Option.bind_eq_bind, Option.bind_some, size_append, Nat.add_sub_cancel_left,
    getD_blankOffset?]
  rfl

/-- The next class is tried exactly if the one before it has not matched. -/
theorem orElse?_some (found next : Option Lexeme) :
    orElse? (some (found.map measured)) (some (next.map measured))
      = some ((found <|> next).map measured) := by
  cases found <;> rfl

/-- Where a character begins and no word is cut, the checked scanner finds the lexeme. -/
theorem classify?_size (hne : cs ≠ []) (hopens : OpensWord (before ++ cs) before.length) :
    classify? (before ++ cs) (size before) = some (measured (Lexeme.first cs)) := by
  have hnumber : spelled? .number (before ++ cs) (size before)
      (numberLength? (before ++ cs) (size before))
      = some ((Lexeme.number? cs).map measured) :=
    spelled?_size .number (numberLength?_size hopens) fun l hl =>
      ⟨(Lexeme.number?_heads hl).isPrefix, (Lexeme.number?_spelled hl).imp fun _ h => h.2⟩
  have hvar : spelled? .var (before ++ cs) (size before) (varLength? (before ++ cs) (size before))
      = some ((Lexeme.var? cs).map measured) :=
    spelled?_size .var (varLength?_size hne hopens) fun l hl =>
      ⟨(Lexeme.var?_heads hl).isPrefix, Lexeme.var?_spelled hl⟩
  have hident : spelled? .ident (before ++ cs) (size before)
      (identLength? (before ++ cs) (size before))
      = some ((Lexeme.ident? cs).map measured) :=
    spelled?_size .ident (identLength?_size hopens) fun l hl =>
      ⟨(Lexeme.ident?_heads hl).isPrefix, Lexeme.ident?_spelled hl⟩
  have hother : spelled? .other (before ++ cs) (size before)
      (otherLength? (before ++ cs) (size before))
      = some ((some (Lexeme.other cs)).map measured) :=
    spelled?_size .other otherLength?_size fun l hl =>
      Option.some.inj hl ▸ ⟨List.takeWhile_prefix _, _, Lexeme.other_spelled cs⟩
  rw [classify?, keyword?_size hopens, symbol?_size, text?_size hne, hnumber, hvar, hident,
    comment?_size, hother]
  -- What is tried at last always matches.
  have hlast : ∀ found : Option Lexeme,
      (found <|> some (Lexeme.other cs)) = some (found.getD (Lexeme.other cs)) := by
    rintro (_ | l) <;> rfl
  have hearlier : ∀ found next : Option Lexeme,
      (found <|> some (next.getD (Lexeme.other cs)))
        = some ((found <|> next).getD (Lexeme.other cs)) := by
    rintro (_ | l) next <;> rfl
  simp only [orElse?_some, hlast, hearlier]
  rfl

/-- Inside a character nothing is classified. -/
example : classify? "1é".toList 1 = some (some (.other "é"), 2) ∧
    classify? "1é".toList 2 = none := by
  decide +kernel

/-- Inside a word the identifier is not found. -/
example : classify? "ab".toList 1 = some (some (.other "b"), 1) := by
  decide +kernel

end Zed.Bytes
