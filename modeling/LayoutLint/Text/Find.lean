/-!
# Find — the first place of a pattern in a text
-/
namespace LayoutLint.Text

/-- The least index, counted from `i` at the head of the text, at which the pattern stands. -/
def findFrom (i : Nat) (pattern : List Char) : List Char → Option Nat
  | [] => if pattern.isEmpty then some i else none
  | c :: r => if pattern.isPrefixOf (c :: r) then some i else findFrom (i + 1) pattern r

/-- The number of characters before the first place of the pattern. -/
def find? (pattern text : List Char) : Option Nat := findFrom 0 pattern text

end LayoutLint.Text
