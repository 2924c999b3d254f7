/-!
# Positions in a source text

Lines are counted from one. Columns are counted from zero, in characters of the line.
-/

set_option autoImplicit false

namespace Zed

/-- A place in a source text. -/
structure Position where
  /-- The number of the line, counted from one. -/
  line : Nat
  /-- The number of characters before the place on its line. -/
  column : Nat
  deriving DecidableEq, Repr

end Zed
