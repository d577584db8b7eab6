/-!
# Ranges of code points

A class of characters is given as a list of ranges of code points, both ends included, in ascending order.
-/

set_option autoImplicit false

namespace Modula.Text

/-- Whether a code point lies in one of the ranges; the ranges ascend, so the search ends at the first one beyond it. -/
def inRanges (n : Nat) : List (Nat × Nat) → Bool
  | [] => false
  | (low, high) :: rest => if n < low then false else if n ≤ high then true else inRanges n rest

end Modula.Text
