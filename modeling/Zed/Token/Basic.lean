import Zed.Position
import Zed.Token.Keyword
import Zed.Token.Symbol

/-!
# Tokens

A token is a classified lexeme with its place in the source. The kind carries the payload that the
grammar works with; the lexeme itself is kept only to be quoted in messages.
-/

set_option autoImplicit false

namespace Zed

/-- The class of a lexeme, with what the grammar needs to know of it. -/
inductive Token.Kind where
  /-- A reserved word. -/
  | keyword (word : Keyword)
  /-- An operator sign or punctuation mark. -/
  | symbol (sign : Symbol)
  /-- A number, by its spelling. -/
  | number (spelling : String)
  /-- A string literal, by its body without the quotes. -/
  | text (body : String)
  /-- The name of a variable. -/
  | var (name : String)
  /-- An identifier, such as the name of a program. -/
  | ident (name : String)
  /-- Any other run of characters; no rule of the grammar accepts it. -/
  | other (lexeme : String)
  deriving DecidableEq, Repr

/-- A classified lexeme at its place in the source. -/
structure Token where
  /-- The class and payload of the lexeme. -/
  kind : Token.Kind
  /-- The exact characters of the lexeme. -/
  lexeme : String
  /-- The place of its first character. -/
  position : Position
  deriving DecidableEq, Repr

namespace Token

/-- The token is the keyword `word`. -/
def isKeyword (t : Token) (word : Keyword) : Bool :=
  t.kind = .keyword word

/-- The token is the symbol `sign`. -/
def isSymbol (t : Token) (sign : Symbol) : Bool :=
  t.kind = .symbol sign

/-- The token is a keyword that closes a block or a compound statement. -/
def isCloser (t : Token) : Bool :=
  match t.kind with
  | .keyword word => word.isCloser
  | _ => false

end Token

end Zed
