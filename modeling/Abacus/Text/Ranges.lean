/-!
Membership in a sorted table of ranges.
-/

namespace Abacus.Text

/-- The ranges are given by first and last element, and in ascending order. -/
def inRanges (n : Nat) : List (Nat × Nat) → Bool
  | [] => false
  | (first, last) :: ranges =>
    if n < first then false else n ≤ last || inRanges n ranges

end Abacus.Text
