/-!
# Symbols of Zed

The seventeen operator signs and punctuation marks. A text is matched against them in the order of
`Symbol.all`, where every two-character sign stands before its one-character beginning.
-/

set_option autoImplicit false

namespace Zed

/-- An operator sign or punctuation mark of Zed. -/
inductive Symbol where
  | atLeast | atMost | equal | and | or
  | plus | minus | times | slash | percent
  | greater | less | bang | colon | openBracket | closeBracket | assign
  deriving DecidableEq, Repr

namespace Symbol

/-- All symbols in matching order. -/
def all : List Symbol :=
  [atLeast, atMost, equal, and, or, plus, minus, times, slash, percent,
    greater, less, bang, colon, openBracket, closeBracket, assign]

/-- The sign as it stands in a source text. -/
def spelling : Symbol → String
  | atLeast => ">="
  | atMost => "<="
  | equal => "=="
  | and => "&&"
  | or => "||"
  | plus => "+"
  | minus => "-"
  | times => "*"
  | slash => "/"
  | percent => "%"
  | greater => ">"
  | less => "<"
  | bang => "!"
  | colon => ":"
  | openBracket => "["
  | closeBracket => "]"
  | assign => "="

/-- The symbol spelled `sign`, if there is one. -/
def ofSpelling? (sign : String) : Option Symbol :=
  all.find? (·.spelling == sign)

end Symbol

end Zed
