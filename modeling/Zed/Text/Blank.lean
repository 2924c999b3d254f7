/-!
# Blank characters

Blanks separate lexemes and carry no meaning of their own. A character is blank when it has the
Unicode property `White_Space`: twenty-five code points in ten ranges, the line breaks included.
-/

set_option autoImplicit false

namespace Zed.Text

/-- The blank code points as inclusive ranges, in increasing order. -/
def blankRanges : List (Nat × Nat) :=
  [(0x09, 0x0D), (0x20, 0x20), (0x85, 0x85), (0xA0, 0xA0), (0x1680, 0x1680), (0x2000, 0x200A),
    (0x2028, 0x2029), (0x202F, 0x202F), (0x205F, 0x205F), (0x3000, 0x3000)]

/-- A character is blank when its code point lies in one of the blank ranges. -/
def isBlank (c : Char) : Bool :=
  blankRanges.any fun range => range.1 ≤ c.toNat && c.toNat ≤ range.2

end Zed.Text
