import LayoutLint.Proofs.Layout.Places
/-!
# Boundaries — offsets between two characters

An offset counts bytes, and it tells a place in a text only where a character ends and the next one starts
(`Text.IsBoundary`). A text may be cut there, and what is a boundary in the whole is one in the part it falls in
(`IsBoundary.of_append_left`, `IsBoundary.of_append_right`). The words and the trivia of a document start and end at
boundaries of its text (`Document.isBoundary_span`, `Document.isBoundary_gap`).
-/
namespace LayoutLint

namespace Text

/-- Does the offset stand between two characters of the text, or at an end of it? -/
def IsBoundary (cs : List Char) (n : Nat) : Prop := ∃ front rest, cs = front ++ rest ∧ width front = n

variable {cs a b : List Char} {n : Nat}

theorem isBoundary_append (a b : List Char) : IsBoundary (a ++ b) (width a) := ⟨a, b, rfl, rfl⟩

theorem isBoundary_zero (cs : List Char) : IsBoundary cs 0 := ⟨[], cs, rfl, rfl⟩

theorem isBoundary_width (cs : List Char) : IsBoundary cs (width cs) := ⟨cs, [], (List.append_nil cs).symm, rfl⟩

theorem IsBoundary.le (h : IsBoundary cs n) : n ≤ width cs := by
  obtain ⟨front, rest, rfl, rfl⟩ := h
  rw [width_append]
  exact Nat.le_add_right _ _

theorem IsBoundary.append_left (a : List Char) (h : IsBoundary b n) : IsBoundary (a ++ b) (width a + n) := by
  obtain ⟨front, rest, rfl, rfl⟩ := h
  exact ⟨a ++ front, rest, (List.append_assoc a front rest).symm, width_append a front⟩

theorem eq_nil_of_width_eq_zero (h : width cs = 0) : cs = [] := by
  cases cs with
  | nil => rfl
  | cons c cs =>
    have := Char.utf8Size_pos c
    rw [width_cons] at h
    omega

theorem IsBoundary.of_append_left (h : IsBoundary (a ++ b) n) (hn : width a ≤ n) : IsBoundary b (n - width a) := by
  obtain ⟨front, rest, he, rfl⟩ := h
  obtain ⟨a', rfl, rfl⟩ | ⟨c, rfl, rfl⟩ := List.append_eq_append_iff.1 he
  · rw [width_append, Nat.add_sub_cancel_left]
    exact isBoundary_append _ _
  · rw [width_append, Nat.sub_eq_zero_of_le (Nat.le_add_right _ _)]
    exact isBoundary_zero b

theorem IsBoundary.of_append_right (h : IsBoundary (a ++ b) n) (hn : n ≤ width a) : IsBoundary a n := by
  obtain ⟨front, rest, he, rfl⟩ := h
  obtain ⟨a', rfl, rfl⟩ | ⟨c, rfl, rfl⟩ := List.append_eq_append_iff.1 he
  · rw [width_append] at hn ⊢
    have ha : a' = [] := eq_nil_of_width_eq_zero (by omega)
    rw [ha, width_nil]
    exact isBoundary_width a
  · exact isBoundary_append _ _

end Text

open Piece (charsOf)
open Text (IsBoundary width)

/-! ### Words and trivia -/

namespace Document

variable {d : Document}

theorem width_partsOf_take (d : Document) {i : Nat} (hi : i ≤ d.size) :
    width (charsOf (Token.partsOf (d.tokens.toList.take i))) = d.fullStart i := by
  rw [Token.charsOf_partsOf, d.fullStart_eq hi, ← utf8ByteSize_textOf, Text.utf8ByteSize_eq_width]

/-- The text in front of a token, the trivia and the word of the token, and the text behind it. -/
theorem text_eq_around (d : Document) {i : Nat} (hi : i < d.size) :
    d.text.toList = charsOf (Token.partsOf (d.tokens.toList.take i)) ++
      (charsOf ((d.token i).leading.map .trivia) ++ ((d.token i).text.toList ++
        (charsOf ((d.token i).trailing.map .trivia) ++
          charsOf (Token.partsOf (d.tokens.toList.drop (i + 1)))))) := by
  have hsplit : d.tokens.toList = d.tokens.toList.take i ++ d.token i :: d.tokens.toList.drop (i + 1) := by
    rw [d.token_eq_getElem hi]
    exact (List.take_append_drop i _).symm.trans (congrArg _ (List.drop_eq_getElem_cons hi))
  have hparts : d.parts = Token.partsOf (d.tokens.toList.take i) ++
      ((d.token i).parts ++ Token.partsOf (d.tokens.toList.drop (i + 1))) := by
    rw [parts, ← Token.partsOf_cons, Token.partsOf, Token.partsOf, Token.partsOf, ← List.flatMap_append, ← hsplit]
  rw [← d.charsOf_parts, hparts, Token.parts]
  simp only [Piece.charsOf_append, Token.charsOf_own, List.append_assoc]

/-- The text of trivia in two parts. -/
theorem charsOf_take_append_drop (ts : List Trivia) (k : Nat) :
    charsOf (ts.map .trivia) = charsOf ((ts.take k).map .trivia) ++ charsOf ((ts.drop k).map .trivia) := by
  rw [← Piece.charsOf_append, ← List.map_append, List.take_append_drop]

theorem isBoundary_leading (d : Document) {i : Nat} (hi : i < d.size) (k : Nat) :
    IsBoundary d.text.toList (d.fullStart i + Trivia.listWidth ((d.token i).leading.take k)) := by
  rw [d.text_eq_around hi, charsOf_take_append_drop _ k, List.append_assoc, ← d.width_partsOf_take (Nat.le_of_lt hi),
    ← width_trivia]
  exact (Text.isBoundary_append _ _).append_left _

theorem span_stop_eq_width (d : Document) {i : Nat} (hi : i < d.size) :
    (d.span i).stop = width (charsOf (Token.partsOf (d.tokens.toList.take i))) +
      (width (charsOf ((d.token i).leading.map .trivia)) + width (d.token i).text.toList) := by
  rw [d.width_partsOf_take (Nat.le_of_lt hi), width_trivia, ← Text.utf8ByteSize_eq_width, ← Nat.add_assoc]
  rfl

theorem isBoundary_trailing (d : Document) {i : Nat} (hi : i < d.size) (k : Nat) :
    IsBoundary d.text.toList ((d.span i).stop + Trivia.listWidth ((d.token i).trailing.take k)) := by
  rw [d.text_eq_around hi, charsOf_take_append_drop (d.token i).trailing k, List.append_assoc,
    d.span_stop_eq_width hi, ← width_trivia, Nat.add_assoc, Nat.add_assoc]
  exact (((Text.isBoundary_append _ _).append_left _).append_left _).append_left _

/-- **A word starts and ends between characters.** -/
theorem isBoundary_span (d : Document) {i : Nat} (hi : i < d.size) :
    IsBoundary d.text.toList (d.span i).start ∧ IsBoundary d.text.toList (d.span i).stop := by
  have hstart := d.isBoundary_leading hi (d.token i).leading.length
  have hstop := d.isBoundary_trailing hi 0
  rw [List.take_length] at hstart
  exact ⟨hstart, hstop⟩

/-- **The trivia in a gap starts and ends between characters.** -/
theorem isBoundary_gap (d : Document) {j : Nat} (hj : j < d.size) (k : Nat) :
    IsBoundary d.text.toList (d.gapStart j + Trivia.listWidth ((d.gap j).take k)) := by
  cases j with
  | zero =>
    have h := d.isBoundary_leading hj k
    rwa [fullStart_zero] at h
  | succ j =>
    have hj' : j < d.size := by omega
    rw [gapStart, gap, List.take_append, Trivia.listWidth_append]
    rcases Nat.le_total k (d.token j).trailing.length with hk | hk
    · rw [Nat.sub_eq_zero_of_le hk]
      exact d.isBoundary_trailing hj' k
    · rw [List.take_of_length_le hk, ← Nat.add_assoc]
      have h := d.isBoundary_leading hj (k - (d.token j).trailing.length)
      rwa [← d.span_stop_add hj'] at h

theorem isBoundary_placeAt (d : Document) {j : Nat} (hj : j < d.size) {i : Nat} {t : Trivia}
    (ht : (d.gap j)[i]? = some t) : IsBoundary d.text.toList (d.placeAt j i t).span.start ∧
      IsBoundary d.text.toList (d.placeAt j i t).span.stop := by
  have hstop := d.isBoundary_gap hj (i + 1)
  rw [Trivia.listWidth_take_succ ht, ← Nat.add_assoc] at hstop
  exact ⟨d.isBoundary_gap hj i, hstop⟩

end Document

end LayoutLint
