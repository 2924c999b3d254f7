import Zed.Text.Lines
import Zed.Token.Lexeme

/-!
# From text to tokens

Each line is scanned on its own, and its lexemes become tokens in order; comments are left out. So
tokens come in source order and no token crosses a line break.
-/

set_option autoImplicit false

namespace Zed.Token

/-- The token of a lexeme that stands at `column` of line number `line`; a comment has none. -/
def ofLexeme? (line : Nat) (found : Nat × Lexeme) : Option Token :=
  found.2.kind.map fun kind => ⟨kind, String.ofList found.2.chars, ⟨line, found.1⟩⟩

/-- The tokens of the line with number `line`. -/
def ofLine (line : Nat) (chars : List Char) : List Token :=
  (Lexeme.scan 0 0 chars).filterMap (ofLexeme? line)

/-- The tokens of a source text. -/
def ofSource (source : String) : List Token :=
  ((Text.lines source.toList).zipIdx 1).flatMap fun numbered => ofLine numbered.2 numbered.1

/-- The tokens of a text that is put together from parts, by the characters of the parts. -/
theorem ofSource_join (parts : List String) :
    ofSource (String.join parts)
      = ((Text.lines (parts.flatMap String.toList)).zipIdx 1).flatMap
          fun numbered => ofLine numbered.2 numbered.1 := by
  rw [ofSource, String.toList_join]

/-- The first `count` answers of a stream of tokens that goes on with nothing after its end. -/
def firstOf (count : Nat) (tokens : List Token) : List (Option Token) :=
  (List.range count).map fun i => tokens[i]?

end Zed.Token
