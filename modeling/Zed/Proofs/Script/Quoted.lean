import Zed.Proofs.Token.Alphabet
import Zed.Script.Expression

/-!
# String literals of a script

A string of a program has no escapes, a string literal of Python has many. `Python.quoted` reads a
literal the way Python does: it looks for the first quote that no backslash hides, and then replaces
the escape sequences before it. All of them are here, with the ones that do not accept what follows,
so that one backslash too few would be read as something else or not at all.

A script spells a string so that it is read as that string (`Script.text_reads_back`). Two facts
together make this true. The characters of a string are printable and none is a quote, so nothing
has to be hidden. And every backslash is written twice, so a backslash is only ever read together
with the one behind it, however many of them stand in a row.
-/

set_option autoImplicit false

namespace Zed

/-! ## How Python reads a literal -/

namespace Python

/-- The characters up to the first quote that no backslash hides, and what follows that quote. A
backslash was just read if `hidden`. A line may be broken behind a backslash only. -/
def toQuote : (hidden : Bool) → List Char → Option (List Char × List Char)
  | _, [] => none
  | true, c :: cs => (toQuote false cs).map fun r => (c :: r.1, r.2)
  | false, c :: cs =>
    if c = '"' then some ([], cs)
    else if c = '\n' then none
    else (toQuote (c = '\\') cs).map fun r => (c :: r.1, r.2)

/-- The value of a digit in some base. -/
def digit? (base : Nat) (c : Char) : Option Nat :=
  let value :=
    if c.isDigit then c.toNat - '0'.toNat
    else if c.isLower then c.toNat - 'a'.toNat + 10
    else if c.isUpper then c.toNat - 'A'.toNat + 10
    else base
  if value < base then some value else none

/-- The character whose code has the given digits. Surrogates have codes and are no characters. -/
def byCode? (base : Nat) (digits : List Char) : Option Char :=
  (digits.foldlM (fun code c => (digit? base c).map (base * code + ·)) 0).bind fun code =>
    if code.isValidChar then some (Char.ofNat code) else none

/-- A sequence that gives the code of a character by exactly `count` hexadecimal digits,
behind one letter. -/
def byHexCode? (count : Nat) (cs : List Char) : Option (List Char × Nat) :=
  if cs.length < count then none
  else (byCode? 16 (cs.take count)).map fun c => ([c], count + 1)

/-- A sequence that gives the name of a character in braces, behind one letter. -/
def byName? (names : String → Option Char) : List Char → Option (List Char × Nat)
  | '{' :: cs =>
    let name := cs.takeWhile (· ≠ '}')
    if name.length = cs.length then none
    else (names (String.ofList name)).map fun c => ([c], name.length + 3)
  | _ => none

/-- What an escape sequence stands for and the number of its characters, both without the backslash
in front. A sequence that is not known stands for itself, with its backslash. -/
def escape? (names : String → Option Char) : List Char → Option (List Char × Nat)
  | [] => none
  | '\n' :: _ => some ([], 1)
  | '\\' :: _ => some (['\\'], 1)
  | '\'' :: _ => some (['\''], 1)
  | '"' :: _ => some (['"'], 1)
  | 'a' :: _ => some ([Char.ofNat 0x07], 1)
  | 'b' :: _ => some ([Char.ofNat 0x08], 1)
  | 't' :: _ => some ([Char.ofNat 0x09], 1)
  | 'n' :: _ => some ([Char.ofNat 0x0A], 1)
  | 'v' :: _ => some ([Char.ofNat 0x0B], 1)
  | 'f' :: _ => some ([Char.ofNat 0x0C], 1)
  | 'r' :: _ => some ([Char.ofNat 0x0D], 1)
  | 'x' :: cs => byHexCode? 2 cs
  | 'u' :: cs => byHexCode? 4 cs
  | 'U' :: cs => byHexCode? 8 cs
  | 'N' :: cs => byName? names cs
  | c :: cs =>
    -- One to three octal digits.
    let digits := ((c :: cs).take 3).takeWhile fun d => (digit? 8 d).isSome
    if digits = [] then some (['\\', c], 1)
    else (byCode? 8 digits).map fun d => ([d], digits.length)

/-- The string that the characters between the quotes stand for. The next `inside` characters belong
to the escape sequence before them. -/
def unescape (names : String → Option Char) : (inside : Nat) → List Char → Option (List Char)
  | _, [] => some []
  | inside + 1, _ :: cs => unescape names inside cs
  | 0, c :: cs =>
    if c = '\\' then
      (escape? names cs).bind fun e => (unescape names e.2 cs).map (e.1 ++ ·)
    else (unescape names 0 cs).map (c :: ·)

/-- Reads a string literal in double quotes off the front of a text, where `names` knows the
characters that have names. -/
def quoted (names : String → Option Char) (text : String) : Option (String × String) :=
  match text.toList with
  | '"' :: cs => (toQuote false cs).bind fun r =>
    (unescape names 0 r.1).map fun body => (String.ofList body, String.ofList r.2)
  | _ => none

/-! ## Doubled backslashes -/

/-- The quote behind a body is the first one that is not hidden: the backslashes of the body
hide each other. -/
theorem toQuote_escaped {body : List Char} (rest : List Char)
    (hquote : '"' ∉ body) (hbreak : '\n' ∉ body) :
    toQuote false (body.flatMap Script.escaped ++ '"' :: rest)
      = some (body.flatMap Script.escaped, rest) := by
  induction body with
  | nil => rfl
  | cons c body ih =>
    rw [List.mem_cons, not_or] at hquote hbreak
    have hrest := ih hquote.2 hbreak.2
    rw [List.flatMap_cons, List.append_assoc]
    by_cases hslash : c = '\\'
    · subst hslash
      show toQuote false ('\\' :: '\\' :: (body.flatMap Script.escaped ++ '"' :: rest)) = _
      rw [toQuote, if_neg (by decide), if_neg (by decide), decide_eq_true rfl, toQuote, hrest]
      rfl
    · have hone : Script.escaped c = [c] := if_neg hslash
      rw [hone, List.singleton_append, toQuote, if_neg (Ne.symm hquote.1),
        if_neg (Ne.symm hbreak.1), decide_eq_false hslash, hrest]
      rfl

/-- Two backslashes stand for one, and no other escape sequence comes up. -/
theorem unescape_escaped (names : String → Option Char) (body : List Char) :
    unescape names 0 (body.flatMap Script.escaped) = some body := by
  induction body with
  | nil => rfl
  | cons c body ih =>
    rw [List.flatMap_cons]
    by_cases hslash : c = '\\'
    · subst hslash
      show unescape names 0 ('\\' :: '\\' :: body.flatMap Script.escaped) = _
      rw [unescape, if_pos rfl]
      show (unescape names 0 (body.flatMap Script.escaped)).map (['\\'] ++ ·) = _
      rw [ih]
      rfl
    · have hone : Script.escaped c = [c] := if_neg hslash
      rw [hone, List.singleton_append, unescape, if_neg hslash, ih]
      rfl

theorem quoted_text (names : String → Option Char) {body : String} (rest : String)
    (hquote : '"' ∉ body.toList) (hbreak : '\n' ∉ body.toList) :
    quoted names (Script.text body ++ rest) = some (body, rest) := by
  have hchars : (Script.text body ++ rest).toList
      = '"' :: (body.toList.flatMap Script.escaped ++ '"' :: rest.toList) := by
    simp [Script.text]
  rw [quoted, hchars]
  simp only [toQuote_escaped rest.toList hquote hbreak, Option.bind_some, unescape_escaped,
    Option.map_some, String.ofList_toList]

end Python

/-! ## Strings of programs -/

/-- The body of a string is printable, so there is neither a quote nor a line break in it. -/
theorem Token.not_mem_text {source : String} {t : Token} {body : String} {c : Char}
    (ht : t ∈ ofSource source) (hkind : t.kind = .text body) (hc : Lexeme.isBodyChar c = false) :
    c ∉ body.toList := by
  have hadmitted := ofSource_admitted source t ht
  rw [hkind] at hadmitted
  intro hmem
  have hbody := List.all_eq_true.1 hadmitted c hmem
  rw [hc] at hbody
  cases hbody

/-- A string of a source text is read back from a script, as a term and as a label of a switch:
whatever follows its literal, Python reads the characters that stand between the quotes in the
source and leaves what follows. -/
theorem Script.text_reads_back (names : String → Option Char) {source : String} {t : Token}
    {body : String} (ht : t ∈ Token.ofSource source) (hkind : t.kind = .text body) (rest : String) :
    Python.quoted names (Script.term (.text body) ++ rest) = some (body, rest) ∧
      Python.quoted names (Script.literal (.text body) ++ rest) = some (body, rest) := by
  have hread : Python.quoted names (Script.text body ++ rest) = some (body, rest) :=
    Python.quoted_text names rest (Token.not_mem_text ht hkind (by decide))
      (Token.not_mem_text ht hkind (by decide))
  exact ⟨hread, hread⟩

/-- Backslashes before letters that mean something to Python, in a row, and at the end
of the string. -/
theorem Script.text_reads_back_backslashes :
    let body := "\\n\\\\\\x4\\"
    (⟨.text body, "\"\\n\\\\\\x4\\\"", ⟨1, 4⟩⟩ : Token) ∈ Token.ofSource "OUT[\"\\n\\\\\\x4\\\"]:" ∧
      Script.term (.text body) = "\"\\\\n\\\\\\\\\\\\x4\\\\\"" ∧
      Python.quoted (fun _ => none) (Script.term (.text body) ++ "\")") = some (body, "\")") ∧
      Python.quoted (fun _ => none) "\"\\n\\x4\"" = none := by
  intro body
  have hmem : (⟨.text body, "\"\\n\\\\\\x4\\\"", ⟨1, 4⟩⟩ : Token)
      ∈ Token.ofSource "OUT[\"\\n\\\\\\x4\\\"]:" := by
    decide +kernel
  exact ⟨hmem, by decide +kernel, (Script.text_reads_back (fun _ => none) hmem rfl "\")").1,
    by decide +kernel⟩

end Zed
