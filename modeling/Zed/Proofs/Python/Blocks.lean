/-!
# Block structure of lines

What Python asks of the lines of a function before it looks at a single expression: how they are
indented, what continues an `if`, and where a `break` may stand. Nothing is read here but the
indentation of a line, the word that it begins with and whether it ends in a colon.

`Blocks past rows` says it of the lines `rows` after the lines `past`, of which the latest comes
first. So what a line needs of the lines before it and behind it is at hand when it is met.
-/

set_option autoImplicit false

namespace Zed.Python

/-- A line of a text: the number of spaces in front and the characters behind them. -/
structure Row where
  indent : Nat
  text : List Char
  deriving DecidableEq

namespace Row

/-- The line with the given characters. -/
def ofChars (cs : List Char) : Row :=
  ⟨(cs.takeWhile (· = ' ')).length, cs.dropWhile (· = ' ')⟩

/-- The line ends in a colon. -/
def opens (r : Row) : Bool :=
  r.text.getLast? = some ':'

/-- The word that the line begins with. -/
def word (r : Row) : String :=
  String.ofList (r.text.takeWhile Char.isAlpha)

end Row

/-- The lines whose suites a line with a given indentation stands in, the innermost first. Each of
them is the last line before that is indented less than the one inside it. -/
def enclosing : (indent : Nat) → (past : List Row) → List Row
  | _, [] => []
  | indent, r :: past =>
    if r.indent < indent then r :: enclosing r.indent past else enclosing indent past

/-- Not counting deeper lines, the last line has the given indentation and is the header of an `if`
or `elif`, so the next line with that indentation may continue its chain. -/
def Continues (past : List Row) (indent : Nat) : Prop :=
  ∃ before ∈ past.find? fun b => b.indent ≤ indent,
    before.indent = indent ∧ before.opens = true ∧ (before.word = "if" ∨ before.word = "elif")

/-- The line has its place between the lines before it, the latest first, and the
lines behind it. -/
structure Placed (past : List Row) (r : Row) (future : List Row) : Prop where
  aligned : r.indent % 4 = 0
  /-- A line that ends in a colon is followed by its suite. -/
  suite : r.opens = true → ∃ next ∈ future.head?, next.indent = r.indent + 4
  /-- After any other line the same suite goes on, or one around it. -/
  dedent : r.opens = false → ∀ next ∈ future.head?, next.indent ≤ r.indent ∧
    ∃ head ∈ enclosing r.indent past, head.opens = true ∧ next.indent = head.indent + 4
  elif : r.word = "elif" → Continues past r.indent
  otherwise : r.word = "else" → Continues past r.indent
  /-- Not counting deeper lines, nothing continues the chain behind an `else`. -/
  last : r.word = "else" → ∀ next ∈ future.find? fun b => b.indent ≤ r.indent,
    next.indent = r.indent → next.word ≠ "elif" ∧ next.word ≠ "else"
  /-- A `break` stands in an endless loop. -/
  leave : r.word = "break" → ∃ loop ∈ enclosing r.indent past, loop.text = "while True:".toList

/-- Every line has its place. -/
def Blocks : (past rows : List Row) → Prop
  | _, [] => True
  | past, r :: future => Placed past r future ∧ Blocks (r :: past) future

/-! ## Lines that are passed over -/

/-- Lines that are not indented less enclose nothing. -/
theorem enclosing_append {indent : Nat} {rows : List Row} (past : List Row)
    (h : ∀ r ∈ rows, indent ≤ r.indent) :
    enclosing indent (rows ++ past) = enclosing indent past := by
  induction rows with
  | nil => rfl
  | cons r rows ih =>
    obtain ⟨hr, hrows⟩ := List.forall_mem_cons.1 h
    rw [List.cons_append, enclosing, if_neg (Nat.not_lt.2 hr), ih hrows]

/-- Deeper lines are not counted. -/
theorem find?_append_of_deeper {indent : Nat} {rows : List Row} (others : List Row)
    (h : ∀ r ∈ rows, indent < r.indent) :
    (rows ++ others).find? (fun b => decide (b.indent ≤ indent))
      = others.find? fun b => decide (b.indent ≤ indent) := by
  have hnone : rows.find? (fun b => decide (b.indent ≤ indent)) = none := by
    rw [List.find?_eq_none]
    intro r hr hle
    exact Nat.not_lt.2 (of_decide_eq_true hle) (h r hr)
  rw [List.find?_append, hnone, Option.none_or]

end Zed.Python
