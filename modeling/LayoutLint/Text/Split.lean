/-!
# Split — a text in parts

A text splits at a separator into the parts between its occurrences; joined by the separator they are the text again
(`intercalate_splitOn`).
-/
namespace LayoutLint.Text

/-- The parts of a text between the separators, one more than there are separators. -/
def splitOn (sep : Char) : List Char → List (List Char)
  | [] => [[]]
  | c :: r =>
    if c == sep then [] :: splitOn sep r
    else
      match splitOn sep r with
      | [] => [[c]]
      | part :: parts => (c :: part) :: parts

theorem splitOn_ne_nil (sep : Char) (cs : List Char) : splitOn sep cs ≠ [] := by
  cases cs with
  | nil => simp [splitOn]
  | cons c r =>
    unfold splitOn
    split
    · simp
    · split <;> simp

/-- **The parts joined are the text.** -/
theorem intercalate_splitOn (sep : Char) (cs : List Char) : [sep].intercalate (splitOn sep cs) = cs := by
  induction cs with
  | nil => simp [splitOn]
  | cons c r ih =>
    obtain ⟨part, parts, h⟩ := List.exists_cons_of_ne_nil (splitOn_ne_nil sep r)
    rw [h] at ih
    by_cases hc : c = sep
    · subst hc
      simp [splitOn, h, ih]
    · simp only [splitOn, beq_iff_eq, hc, if_false, h]
      cases parts with
      | nil => simpa using ih
      | cons p ps => simpa using ih

/-- The part after the last separator, and what stands before that separator if there is one. -/
def splitLast (sep : Char) (cs : List Char) : Option (List Char) × List Char :=
  let tail := (cs.reverse.takeWhile (· != sep)).reverse
  if tail.length < cs.length then (some (cs.take (cs.length - tail.length - 1)), tail) else (none, cs)

/-- The text with every copy of a prefix at its front removed. -/
def dropRepeated (front : List Char) (cs : List Char) : List Char :=
  if !front.isEmpty && front.isPrefixOf cs then dropRepeated front (cs.drop front.length) else cs
termination_by cs.length
decreasing_by
  rename_i h
  simp only [Bool.and_eq_true, Bool.not_eq_true', List.isEmpty_eq_false_iff] at h
  have h₁ := List.length_pos_iff.2 h.1
  have h₂ := (List.isPrefixOf_iff_prefix.1 h.2).length_le
  rw [List.length_drop]
  omega

end LayoutLint.Text
