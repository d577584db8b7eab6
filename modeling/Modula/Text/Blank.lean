import Modula.Text.Ranges

/-!
# Blank characters

A character is blank if it separates words on a page: the blank, the tabs and line ends, and the spaces of other widths.
-/

set_option autoImplicit false

namespace Modula.Text

/-- The blank characters, as ranges of code points in order. -/
def blanks : List (Nat × Nat) :=
  [(0x9, 0xD), (0x20, 0x20), (0x85, 0x85), (0xA0, 0xA0), (0x1680, 0x1680), (0x2000, 0x200A), (0x2028, 0x2029),
   (0x202F, 0x202F), (0x205F, 0x205F), (0x3000, 0x3000)]

/-- Whether a character is blank. -/
def isBlank (c : Char) : Bool := inRanges c.toNat blanks

end Modula.Text
