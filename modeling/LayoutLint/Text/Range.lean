/-!
# Range — classes of characters given as ranges of code points

A class of Unicode characters is written as a list of closed ranges of code points in increasing order. Membership
(`mem`) walks the list and stops at the first range that does not lie below the character.
-/
namespace LayoutLint.Text.Range

/-- Is the code point `n` in one of the ranges? The ranges are in increasing order. -/
def mem (n : Nat) : List (Nat × Nat) → Bool
  | [] => false
  | (lo, hi) :: rest => if n ≤ hi then lo ≤ n else mem n rest

end LayoutLint.Text.Range
