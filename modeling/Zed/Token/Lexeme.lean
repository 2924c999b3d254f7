import Zed.Text.Blank
import Zed.Token.Basic

/-!
# Lexemes

What stands at the beginning of a non-blank rest of a line. The classes are tried in a fixed order:
keyword, symbol, string, number, variable, identifier, comment, and at last any run of non-blank
characters. A keyword, number, variable or identifier must be followed by the end of its word. It
also starts one, since a lexeme never begins right after a word character of another lexeme.
-/

set_option autoImplicit false

namespace Zed

/-- A lexeme: its characters, and its kind unless it is a comment. -/
structure Lexeme where
  /-- The kind of the token it makes; a comment makes none. -/
  kind : Option Token.Kind
  /-- Its characters, at least one. -/
  chars : List Char
  deriving DecidableEq, Repr

namespace Lexeme

/-! ## Character classes -/

/-- The characters of a word: ASCII letters, ASCII digits and the underscore. -/
def isWordChar (c : Char) : Bool :=
  c.isAlphanum || c = '_'

/-- The characters of an identifier: ASCII letters and the underscore. -/
def isIdentChar (c : Char) : Bool :=
  c.isAlpha || c = '_'

/-- The characters of a string body: printable ASCII without the quote. -/
def isBodyChar (c : Char) : Bool :=
  ' ' ≤ c && c ≤ '~' && c ≠ '"'

/-- No word goes on at the beginning of `rest`. -/
def endsWord (rest : List Char) : Bool :=
  !rest.head?.any isWordChar

/-! ## One class at a time -/

/-- A keyword is a whole word. -/
def keyword? (cs : List Char) : Option Lexeme :=
  let word := cs.takeWhile isWordChar
  (Keyword.ofSpelling? (String.ofList word)).map fun k => ⟨some (.keyword k), word⟩

/-- The first symbol, in matching order, that the text begins with. -/
def symbol? (cs : List Char) : Option Lexeme :=
  (Symbol.all.find? fun s => s.spelling.toList.isPrefixOf cs).map fun s =>
    ⟨some (.symbol s), s.spelling.toList⟩

/-- A string runs from a quote to the next one, over body characters only. -/
def text? : List Char → Option Lexeme
  | '"' :: cs =>
    let body := cs.takeWhile isBodyChar
    match cs.dropWhile isBodyChar with
    | '"' :: _ => some ⟨some (.text (String.ofList body)), '"' :: body ++ ['"']⟩
    | _ => none
  | _ => none

/-- The fraction of a number: a point and at least one digit, up to the end of the word. -/
def fraction? : List Char → Option (List Char)
  | '.' :: cs =>
    let digits := cs.takeWhile Char.isDigit
    if digits ≠ [] ∧ endsWord (cs.dropWhile Char.isDigit) then some ('.' :: digits) else none
  | _ => none

/-- A number is a run of digits with an optional fraction. Without a usable fraction the digits
alone must be a whole word. -/
def number? (cs : List Char) : Option Lexeme :=
  let whole := cs.takeWhile Char.isDigit
  let rest := cs.dropWhile Char.isDigit
  let number (spelling : List Char) : Lexeme := ⟨some (.number (String.ofList spelling)), spelling⟩
  if whole = [] then none
  else match fraction? rest with
    | some fraction => some (number (whole ++ fraction))
    | none => if endsWord rest then some (number whole) else none

/-- A variable is one capital letter with digits after it. -/
def var? : List Char → Option Lexeme
  | c :: cs =>
    let name := c :: cs.takeWhile Char.isDigit
    if c.isUpper ∧ endsWord (cs.dropWhile Char.isDigit) then
      some ⟨some (.var (String.ofList name)), name⟩
    else none
  | [] => none

/-- An identifier is a word of letters and underscores. -/
def ident? (cs : List Char) : Option Lexeme :=
  let name := cs.takeWhile isIdentChar
  if name ≠ [] ∧ endsWord (cs.dropWhile isIdentChar) then
    some ⟨some (.ident (String.ofList name)), name⟩
  else none

/-- A comment starts with a number sign and takes the rest of its line. -/
def comment? (cs : List Char) : Option Lexeme :=
  if cs.head? = some '#' then some ⟨none, cs⟩ else none

/-- Anything else is one lexeme up to the next blank. -/
def other (cs : List Char) : Lexeme :=
  let run := cs.takeWhile fun c => !Text.isBlank c
  ⟨some (.other (String.ofList run)), run⟩

/-! ## The first class that matches -/

/-- The lexeme at the beginning of `cs`, which starts with a non-blank character. -/
def first (cs : List Char) : Lexeme :=
  (keyword? cs <|> symbol? cs <|> text? cs <|> number? cs <|> var? cs <|> ident? cs
    <|> comment? cs).getD (other cs)

/-- The lexemes of a line with their columns. Every character is blank, or starts a lexeme, or is
one of the `inside` characters that still belong to the lexeme before it. -/
def scan : (column inside : Nat) → List Char → List (Nat × Lexeme)
  | _, _, [] => []
  | column, inside + 1, _ :: cs => scan (column + 1) inside cs
  | column, 0, c :: cs =>
    if Text.isBlank c then scan (column + 1) 0 cs
    else
      let lexeme := first (c :: cs)
      (column, lexeme) :: scan (column + 1) (lexeme.chars.length - 1) cs

end Lexeme

end Zed
