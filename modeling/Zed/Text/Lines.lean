/-!
# Lines of a text

A text is cut at its line feeds. Every part but the last is a line, and loses one carriage return at
its end, so that both common line endings give the same lines. The last part is a line only if it
holds a character, and it keeps a final carriage return: no line feed follows it.
-/

set_option autoImplicit false

namespace Zed.Text

/-- Puts one character in front of a text that is already cut: a line feed starts a new part, any
other character belongs to the first one. -/
def cutBefore (c : Char) (parts : List (List Char)) : List (List Char) :=
  if c = '\n' then [] :: parts else parts.modifyHead (c :: ·)

/-- The parts between the line feeds of a text, one more than there are line feeds. -/
def segments (text : List Char) : List (List Char) :=
  text.foldr cutBefore [[]]

/-- A part without the carriage return at its end, if it has one. -/
def withoutReturn (part : List Char) : List Char :=
  if part.getLast? = some '\r' then part.dropLast else part

/-- The lines among the parts of a text. -/
def linesOfSegments : List (List Char) → List (List Char)
  | [] => []
  | [last] => if last = [] then [] else [last]
  | part :: rest => withoutReturn part :: linesOfSegments rest

/-- The lines of a text, without their line breaks. -/
def lines (text : List Char) : List (List Char) :=
  linesOfSegments (segments text)

@[simp] theorem segments_nil : segments [] = [[]] := rfl

@[simp] theorem segments_cons (c : Char) (text : List Char) :
    segments (c :: text) = cutBefore c (segments text) := rfl

end Zed.Text
