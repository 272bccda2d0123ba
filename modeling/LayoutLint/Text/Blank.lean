/-!
# Blank — white space

White space is Unicode's property White_Space. It contains what ASCII calls white space (`isBlank_of_isWhitespace`), the
vertical tab and the form feed, and the spaces of other scripts; the zero width space and the byte order mark are not in
it. Trimming removes it from both ends of a text.
-/
namespace LayoutLint.Text

/-- A character with the property White_Space. -/
def isBlank (c : Char) : Bool :=
  let n := c.toNat
  (9 ≤ n && n ≤ 13) || n == 0x20 || n == 0x85 || n == 0xA0 || n == 0x1680 || (0x2000 ≤ n && n ≤ 0x200A) ||
    n == 0x2028 || n == 0x2029 || n == 0x202F || n == 0x205F || n == 0x3000

theorem isBlank_of_isWhitespace {c : Char} (h : c.isWhitespace = true) : isBlank c = true := by
  simp only [Char.isWhitespace, Bool.or_eq_true, decide_eq_true_eq] at h
  rcases h with ((rfl | rfl) | rfl) | rfl <;> decide

/-- The white space of a text removed from both of its ends. -/
def trimChars (cs : List Char) : List Char :=
  ((cs.dropWhile isBlank).reverse.dropWhile isBlank).reverse

/-- The white space of a text removed from both of its ends. -/
def trim (s : String) : String := String.ofList (trimChars s.toList)

/-- A text of white space only. -/
def isBlankText (s : String) : Bool := s.toList.all isBlank

end LayoutLint.Text
