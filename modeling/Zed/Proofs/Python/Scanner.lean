import Mathlib.Data.List.TakeWhile
import Zed.Proofs.Token.Alphabet
import Zed.Script.Text

/-!
# Tokens of scripts

How Python cuts a line into tokens, for the characters that scripts use: words, numbers without a
sign, strings in either kind of quotes, and the signs of the few operators and brackets. A number
with a point is a floating-point number, one without is an integer. In a string a backslash stands
before a quote or another backslash; no other escapes are known here. What is not known becomes a
token that no line of the grammar contains.

The lemmas say how one token is cut off the front of a line, and when the characters after it do
not belong to it.
-/

set_option autoImplicit false

namespace Zed.Python

/-- An operator sign or punctuation mark. -/
inductive Sign where
  | open | close | comma | colon | assign | plus | star | atLeast | atMost | greater | less | equal
  deriving DecidableEq, Repr

/-- A token of a line. -/
inductive Tok where
  /-- A name or a reserved word. -/
  | name (word : String)
  | int (n : Nat)
  | float (x : Binary64)
  | text (body : String)
  | sign (sign : Sign)
  /-- A character that starts nothing known. -/
  | other (c : Char)
  deriving DecidableEq, Repr

/-! ## One token -/

/-- The sign at the beginning of a text, and its length. Of two signs the longer one counts. -/
def sign? : List Char → Option (Sign × Nat)
  | '=' :: '=' :: _ => some (.equal, 2)
  | '>' :: '=' :: _ => some (.atLeast, 2)
  | '<' :: '=' :: _ => some (.atMost, 2)
  | '=' :: _ => some (.assign, 1)
  | '>' :: _ => some (.greater, 1)
  | '<' :: _ => some (.less, 1)
  | '(' :: _ => some (.open, 1)
  | ')' :: _ => some (.close, 1)
  | ',' :: _ => some (.comma, 1)
  | ':' :: _ => some (.colon, 1)
  | '+' :: _ => some (.plus, 1)
  | '*' :: _ => some (.star, 1)
  | _ => none

/-- The body of a string up to its closing quote, and the number of characters up to there. A
backslash was just read if `escaping`. -/
def unquote (quote : Char) : (escaping : Bool) → List Char → Option (List Char × Nat)
  | _, [] => none
  | true, c :: rest =>
    if c = '\\' ∨ c = '\'' ∨ c = '"' then
      (unquote quote false rest).map fun r => (c :: r.1, r.2 + 1)
    else none
  | false, c :: rest =>
    if c = '\\' then (unquote quote true rest).map fun r => (r.1, r.2 + 1)
    else if c = quote then some ([], 1)
    else (unquote quote false rest).map fun r => (c :: r.1, r.2 + 1)

/-- The characters of the number at the beginning of a text: digits, and a point
with more digits. -/
def numeral (cs : List Char) : List Char :=
  let whole := cs.takeWhile Char.isDigit
  match cs.dropWhile Char.isDigit with
  | '.' :: more => whole ++ '.' :: more.takeWhile Char.isDigit
  | _ => whole

/-- The token of a number. -/
def numeralTok (cs : List Char) : Tok :=
  if cs.all Char.isDigit then .int (Nat.ofDigitChars 10 cs 0)
  else match Decimal.ofChars? cs with
    | some d => .float d.toBinary64
    | none => .other '.'

/-- The token at the beginning of a text that starts with `c`, which is no space, and its length. -/
def first (c : Char) (cs : List Char) : Tok × Nat :=
  if Lexeme.isIdentChar c then
    let word := c :: cs.takeWhile Lexeme.isWordChar
    (.name (String.ofList word), word.length)
  else if c.isDigit then
    (numeralTok (numeral (c :: cs)), (numeral (c :: cs)).length)
  else if c = '"' ∨ c = '\'' then
    match unquote c false cs with
    | some (body, length) => (.text (String.ofList body), length + 1)
    | none => (.other c, 1)
  else
    match sign? (c :: cs) with
    | some (sign, length) => (.sign sign, length)
    | none => (.other c, 1)

/-! ## Lines -/

/-- The tokens of a line. Every character is a space, or starts a token, or is one of the `inside`
characters that still belong to the token before it. -/
def scan : (inside : Nat) → List Char → List Tok
  | _, [] => []
  | inside + 1, _ :: cs => scan inside cs
  | 0, c :: cs =>
    if c = ' ' then scan 0 cs
    else (first c cs).1 :: scan ((first c cs).2 - 1) cs

/-- The tokens of a line from its beginning. -/
def tokens (cs : List Char) : List Tok :=
  scan 0 cs

/-! ## Cutting off a token -/

/-- What is inside a token is passed over. -/
theorem scan_eq_tokens_drop (inside : Nat) (cs : List Char) :
    scan inside cs = tokens (cs.drop inside) := by
  induction cs generalizing inside with
  | nil =>
    rw [List.drop_nil]
    cases inside <;> rfl
  | cons c cs ih =>
    cases inside with
    | zero => rfl
    | succ inside => exact ih inside

@[simp] theorem tokens_nil : tokens [] = [] := rfl

@[simp] theorem tokens_space (rest : List Char) : tokens (' ' :: rest) = tokens rest := rfl

/-- Blanks in front are passed over. -/
theorem tokens_spaces (n : Nat) (rest : List Char) :
    tokens (List.replicate n ' ' ++ rest) = tokens rest := by
  induction n with
  | zero => rfl
  | succ n ih => exact ih

/-- The first token of a text, if its characters are known. -/
theorem tokens_of_first {c : Char} {cs rest : List Char} {t : Tok} (hc : c ≠ ' ')
    (h : first c (cs ++ rest) = (t, cs.length + 1)) :
    tokens (c :: cs ++ rest) = t :: tokens rest := by
  show scan 0 (c :: (cs ++ rest)) = _
  rw [scan, if_neg hc, h, scan_eq_tokens_drop]
  simp

/-- The characters after which words, numbers and signs are over: a space or punctuation. -/
def isDelimiter (c : Char) : Bool :=
  c = ' ' || c = ',' || c = ':' || c = '(' || c = ')'

/-- The text begins with a delimiter, if it is not empty. -/
def Delimited (rest : List Char) : Prop :=
  ∀ c ∈ rest.head?, isDelimiter c = true

theorem Delimited.nil : Delimited [] := by
  rintro c ⟨⟩

theorem Delimited.cons {c : Char} (rest : List Char) (h : isDelimiter c = true) :
    Delimited (c :: rest) := by
  rintro c ⟨⟩
  exact h

/-- The characters that can stand behind a word or a number. -/
theorem eq_of_isDelimiter {c : Char} (h : isDelimiter c = true) :
    c = ' ' ∨ c = ',' ∨ c = ':' ∨ c = '(' ∨ c = ')' := by
  simpa [isDelimiter, or_assoc] using h

/-- A class of characters that has no delimiter ends where a text is delimited. -/
theorem Delimited.takeWhile_eq_nil {p : Char → Bool} {rest : List Char} (h : Delimited rest)
    (hp : ∀ c, isDelimiter c = true → p c = false) : rest.takeWhile p = [] := by
  cases rest with
  | nil => rfl
  | cons c rest =>
    apply List.takeWhile_cons_of_neg
    rw [hp c (h c rfl)]
    decide

theorem isWordChar_eq_false_of_isDelimiter (c : Char) (h : isDelimiter c = true) :
    Lexeme.isWordChar c = false := by
  rcases eq_of_isDelimiter h with rfl | rfl | rfl | rfl | rfl <;> decide

theorem isDigit_eq_false_of_isDelimiter (c : Char) (h : isDelimiter c = true) :
    c.isDigit = false := by
  rcases eq_of_isDelimiter h with rfl | rfl | rfl | rfl | rfl <;> decide

/-! ### Words -/

theorem ne_space_of_isIdentChar {c : Char} (h : Lexeme.isIdentChar c = true) : c ≠ ' ' := by
  rintro rfl
  exact absurd h (by decide)

/-- A word is one token, if no letter or digit follows it. -/
theorem tokens_word_of_endsWord {c : Char} {cs rest : List Char} (hc : Lexeme.isIdentChar c = true)
    (hcs : cs.all Lexeme.isWordChar = true) (hrest : rest.takeWhile Lexeme.isWordChar = []) :
    tokens (c :: cs ++ rest) = .name (String.ofList (c :: cs)) :: tokens rest := by
  have htake : (cs ++ rest).takeWhile Lexeme.isWordChar = cs := by
    rw [List.takeWhile_append_of_pos (List.all_eq_true.1 hcs), hrest, List.append_nil]
  apply tokens_of_first (ne_space_of_isIdentChar hc)
  rw [first, if_pos hc, htake]
  rfl

/-- A word before a delimiter is a name. -/
theorem tokens_word {c : Char} {cs rest : List Char} (hc : Lexeme.isIdentChar c = true)
    (hcs : cs.all Lexeme.isWordChar = true) (hrest : Delimited rest) :
    tokens (c :: cs ++ rest) = .name (String.ofList (c :: cs)) :: tokens rest :=
  tokens_word_of_endsWord hc hcs (hrest.takeWhile_eq_nil isWordChar_eq_false_of_isDelimiter)

/-! ### Numbers -/

/-- Digits before a delimiter are an integer. -/
theorem tokens_digits {c : Char} {cs rest : List Char} (hdigits : (c :: cs).all Char.isDigit = true)
    (hrest : Delimited rest) :
    tokens (c :: cs ++ rest) = .int (Nat.ofDigitChars 10 (c :: cs) 0) :: tokens rest := by
  have hc : c.isDigit = true := List.all_eq_true.1 hdigits c (List.mem_cons_self ..)
  have hnumeral : numeral (c :: (cs ++ rest)) = c :: cs := by
    rw [← List.cons_append, numeral, List.takeWhile_append_of_pos (List.all_eq_true.1 hdigits),
      List.dropWhile_append_of_pos (List.all_eq_true.1 hdigits),
      hrest.takeWhile_eq_nil isDigit_eq_false_of_isDelimiter, List.append_nil]
    cases rest with
    | nil => rfl
    | cons d rest =>
      have hd := hrest d rfl
      rw [List.dropWhile_cons_of_neg (by rw [isDigit_eq_false_of_isDelimiter d hd]; decide)]
      rcases eq_of_isDelimiter hd with rfl | rfl | rfl | rfl | rfl <;> rfl
  apply tokens_of_first
  · rintro rfl
    exact absurd hc (by decide)
  · rw [first, Lexeme.isIdentChar_eq_false_of_isDigit hc, hc, hnumeral, numeralTok, hdigits]
    rfl

/-- Digits with a point among them are a floating-point number. -/
theorem tokens_point {c : Char} {whole fraction rest : List Char} {d : Decimal}
    (hwhole : (c :: whole).all Char.isDigit = true) (hfraction : fraction.all Char.isDigit = true)
    (hd : Decimal.ofChars? (c :: whole ++ '.' :: fraction) = some d) (hrest : Delimited rest) :
    tokens ((c :: whole ++ '.' :: fraction) ++ rest) = .float d.toBinary64 :: tokens rest := by
  have hc : c.isDigit = true := List.all_eq_true.1 hwhole c (List.mem_cons_self ..)
  have hnumeral : numeral (c :: ((whole ++ '.' :: fraction) ++ rest))
      = c :: (whole ++ '.' :: fraction) := by
    rw [List.append_assoc, ← List.cons_append, numeral,
      List.takeWhile_append_of_pos (List.all_eq_true.1 hwhole),
      List.dropWhile_append_of_pos (List.all_eq_true.1 hwhole), List.cons_append,
      List.takeWhile_cons_of_neg (by decide), List.dropWhile_cons_of_neg (by decide)]
    simp only [List.takeWhile_append_of_pos (List.all_eq_true.1 hfraction),
      hrest.takeWhile_eq_nil isDigit_eq_false_of_isDelimiter, List.append_nil, List.cons_append]
  rw [List.cons_append] at hd ⊢
  apply tokens_of_first
  · rintro rfl
    exact absurd hc (by decide)
  · have hpoint : (c :: (whole ++ '.' :: fraction)).all Char.isDigit = false := by
      simp
    rw [first, Lexeme.isIdentChar_eq_false_of_isDigit hc, hc, hnumeral, numeralTok, hpoint, hd]
    rfl

/-! ### Strings -/

/-- A backslash that is written twice is read once, and every other character as itself. -/
theorem unquote_escaped {body : List Char} (rest : List Char) (hbody : '"' ∉ body) :
    unquote '"' false (body.flatMap Script.escaped ++ '"' :: rest)
      = some (body, (body.flatMap Script.escaped).length + 1) := by
  induction body with
  | nil => rfl
  | cons c body ih =>
    rw [List.mem_cons, not_or] at hbody
    have hread := ih hbody.2
    rw [List.flatMap_cons]
    by_cases hslash : c = '\\'
    · subst hslash
      show unquote '"' false ('\\' :: '\\' :: (body.flatMap Script.escaped ++ '"' :: rest)) = _
      rw [unquote, if_pos rfl, unquote, if_pos (.inl rfl), hread]
      simp [Script.escaped]
    · have hone : Script.escaped c = [c] := if_neg hslash
      rw [hone, List.singleton_append, List.cons_append, unquote, if_neg hslash,
        if_neg (Ne.symm hbody.1), hread]
      rfl

/-- A string literal of a script is one token, whatever follows it. -/
theorem tokens_text {body : String} (rest : List Char) (hbody : '"' ∉ body.toList) :
    tokens ((Script.text body).toList ++ rest) = .text body :: tokens rest := by
  have hchars : (Script.text body).toList
      = '"' :: (body.toList.flatMap Script.escaped ++ ['"']) := by
    simp [Script.text]
  rw [hchars]
  apply tokens_of_first (by decide)
  rw [List.append_assoc, List.singleton_append, first, if_neg (by decide), if_neg (by decide),
    if_pos (.inl rfl), unquote_escaped rest hbody]
  simp

end Zed.Python
