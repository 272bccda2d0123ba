import LayoutLint.Proofs.Fix.Sweep
import LayoutLint.Proofs.Layout.Bared
/-!
# KeptLines — what taking white space away at the ends of lines does to the lines

The text that the edits for white space at the ends of lines leave is the text with the regions of the runs left out
(`Parsed.bares`). So every line is kept but for blanks at its end, with the break that closes it, and there are as many
lines as before, less one for each run that stands directly between a CR and an LF (`lines_of_sweep`). There the two
breaks become one (`not_lines_of_sweep`).
-/
namespace LayoutLint

open Piece (charsOf)
open Text (width)

/-! ### The runs of a gap -/

/-- The text of each piece is what its kind says: blanks for white space, and a line break. -/
structure ByKind (g : List Trivia) : Prop where
  white : ∀ t ∈ g, t.isWhitespace = true → t.text.toList ≠ [] ∧ ∀ c ∈ t.text.toList, isGap c = true
  breaks : ∀ t ∈ g, t.isEndOfLine = true → IsBreak t.text.toList

theorem ByKind.tail {t : Trivia} {g : List Trivia} (h : ByKind (t :: g)) : ByKind g :=
  ⟨fun u hu => h.white u (List.mem_cons_of_mem _ hu), fun u hu => h.breaks u (List.mem_cons_of_mem _ hu)⟩

/-- Where a line ends in front of trivia it ends in front of the characters. -/
theorem ByKind.lineEnd {last : Bool} {g : List Trivia} {rest : List Char} (h : ByKind g) (hend : endsLine last g = true)
    (hlast : last = true → rest = []) : LineEnd (charsOf (g.map .trivia) ++ rest) := by
  cases g with
  | nil =>
    rw [hlast hend]
    exact lineEnd_nil
  | cons t g =>
    have hbreak := h.breaks t List.mem_cons_self hend
    rw [List.map_cons, Piece.charsOf_cons, List.append_assoc]
    exact lineEnd_append hbreak.ne_nil hbreak.lineEnd

/-- **The runs of a gap, left out of it**, when those behind it are left out of the rest. -/
theorem bares_gap {last : Bool} {p : Nat → Bool} {g : List Trivia} {n : Nat} {spans : List Span}
    {rest rest' : List Char} (hg : ByKind g) (hp : ∀ i t, g[i]? = some t → p i = isRun last t (g.drop (i + 1)))
    (hlast : last = true → rest = []) (h : Bares (n + Trivia.listWidth g) spans rest rest') :
    Bares n (runsIn last n g ++ spans) (charsOf (g.map .trivia) ++ rest)
      (charsOf ((dropAt p g).map .trivia) ++ rest') := by
  induction g generalizing p n with
  | nil => exact h
  | cons t g ih =>
    have hwidth : t.width = width t.text.toList := Text.utf8ByteSize_eq_width _
    rw [Trivia.listWidth_cons, ← Nat.add_assoc] at h
    have ih := ih hg.tail (fun i u hu => hp (i + 1) u hu) h
    have h0 := hp 0 t rfl
    rw [List.drop_succ_cons, List.drop_zero] at h0
    have hchars : charsOf ((t :: g).map .trivia) ++ rest = t.text.toList ++ (charsOf (g.map .trivia) ++ rest) :=
      List.append_assoc ..
    rw [runsIn, dropAt, h0, hchars]
    split
    · rename_i hrun
      obtain ⟨hw, hend⟩ := Bool.and_eq_true_iff.1 hrun
      obtain ⟨hne, hgap⟩ := hg.white t List.mem_cons_self hw
      rw [hwidth] at ih ⊢
      exact .run (f := []) hne hgap (hg.tail.lineEnd hend hlast) ih
    · rw [hwidth] at ih ⊢
      rw [List.nil_append, List.map_cons, Piece.charsOf_cons, List.append_assoc]
      exact ih.append_left t.text.toList

namespace Document

variable {d : Document}

theorem Parsed.byKind_gap (h : d.Parsed) (j : Nat) : ByKind (d.gap j) := by
  constructor
  · intro t ht hw
    obtain ⟨b, r, hheads⟩ := h.reads.heads _ (mem_parts_of_mem_gap ht)
    exact ⟨h.reads.ne_nil _ (mem_parts_of_mem_gap ht), hheads.isGap hw⟩
  · intro t ht he
    obtain ⟨b, r, hheads⟩ := h.reads.heads _ (mem_parts_of_mem_gap ht)
    exact hheads.isBreak (beq_iff_eq.1 he)

theorem isRunAt_of_getElem? {j i : Nat} {t : Trivia} (ht : (d.gap j)[i]? = some t) :
    d.isRunAt j i = isRun (j == d.endOfFile) t ((d.gap j).drop (i + 1)) := by
  rw [isRunAt, ht]
  rfl

/-- The runs from a gap on, left out of the text from there on. -/
theorem Parsed.bares_weave (h : d.Parsed) : ∀ {n j : Nat}, j + n = d.endOfFile →
    Bares (d.gapStart j) ((List.range' j (n + 1)).flatMap fun j => runsIn (j == d.endOfFile) (d.gapStart j) (d.gap j))
      (charsOf (weave d.piece d.gap j n))
      (charsOf (weave d.piece (fun j => dropAt (d.isRunAt j) (d.gap j)) j n))
  | 0, j, hj => by
    have hgap := bares_gap (n := d.gapStart j) (h.byKind_gap j) (fun i t ht => isRunAt_of_getElem? ht) (fun _ => rfl)
      (.nil _ [])
    simp only [List.append_nil] at hgap
    rw [List.range'_succ, List.flatMap_cons, List.range'_zero, List.flatMap_nil, List.append_nil]
    exact hgap
  | n + 1, j, hj => by
    have hne : (j == d.endOfFile) = false := beq_eq_false_iff_ne.2 (by omega)
    have hstart : d.gapStart (j + 1) = d.gapStart j + Trivia.listWidth (d.gap j) + width (d.piece j).chars := by
      have hs := d.size_eq
      rw [← d.span_start (by omega), gapStart, span_stop_eq, Token.textWidth, Text.utf8ByteSize_eq_width]
      rfl
    have hrest := h.bares_weave (n := n) (j := j + 1) (by omega)
    rw [hstart] at hrest
    rw [List.range'_succ, List.flatMap_cons, weave, weave, Piece.charsOf_append, Piece.charsOf_append,
      Piece.charsOf_cons, Piece.charsOf_cons]
    exact bares_gap (h.byKind_gap j) (fun i t ht => isRunAt_of_getElem? ht)
      (fun hlast => by rw [hne] at hlast; cases hlast) (hrest.append_left _)

/-- **The text that is left is the text without the regions of the runs.** -/
theorem Parsed.bares (h : d.Parsed) {e : Document} (he : d.SweptTo e) :
    Bares 0 d.trailingBlanks d.text.toList e.text.toList := by
  have hleft : e.text.toList = charsOf (weave d.piece (fun j => dropAt (d.isRunAt j) (d.gap j)) 0 d.endOfFile) := by
    rw [← charsOf_parts, he.rewords.parts_eq he.proper]
    congr 1
    exact weave_congr (Nat.zero_add _) (fun _ _ => rfl) fun j hj => he.gap j hj
  rw [h.trailingBlanks_eq, List.range_eq_range', d.size_eq, ← charsOf_parts, h.proper.parts_eq_weave, hleft]
  exact h.bares_weave (Nat.zero_add _)

/-! ### The lines of a text -/

/-- The number of runs of white space directly between a CR and an LF. -/
def splitBreaks (d : Document) : Nat := d.trailingBlanks.countP (Text.splitsBreak d.text.toList)

/-- What is left of the lines of a text: each line, with its break, but for blanks at its end; and `gone` lines are
gone, each blank and between a CR and an LF, which are one break now. -/
structure LinesLeft (old new : LineTable) (gone : Nat) : Prop where
  size : new.size + gone = old.size
  lines : BaredLines gone old.lines.toList new.lines.toList
  kept : gone = 0 → List.Forall₂ Line.Kept old.lines.toList new.lines.toList

/-- **Taking white space away at the ends of lines keeps the lines**, but for those between a CR and an LF. -/
theorem lines_of_sweep {s : String} (h : ofSource s = .ok d) : ∃ o, d.applyEdits d.blankEdits = .ok o ∧
    LinesLeft (LineTable.ofString s) (LineTable.ofString o.document.text) d.splitBreaks := by
  obtain ⟨hp, rfl⟩ := parsed_of_ofSource h
  obtain ⟨o, ho, -, hswept⟩ := hp.exists_sweep
  have hlines : BaredLines d.splitBreaks (LineTable.ofString d.text).lines.toList
      (LineTable.ofString o.document.text).lines.toList := (hp.bares hswept).lines (x := []) rfl
  exact ⟨o, ho, hlines.length_eq, hlines, hlines.forall₂⟩

/-- White space at the end of a line, of a text with breaks of each kind. -/
theorem lines_of_sweep_words : ∃ d o, ofSource "a \r\n\t\rb \n" = .ok d ∧ d.applyEdits d.blankEdits = .ok o ∧
    (LineTable.ofString o.document.text).size = 4 := by
  obtain ⟨d, hd, h⟩ := exists_ok_of_any (e := ofSource "a \r\n\t\rb \n") (p := fun d => d.splitBreaks == 0)
    (by decide +kernel)
  obtain ⟨o, ho, hlines⟩ := lines_of_sweep hd
  have hsize : (LineTable.ofString "a \r\n\t\rb \n").size = 4 := by decide +kernel
  have := hlines.size
  rw [beq_iff_eq.1 h, hsize] at this
  exact ⟨d, o, hd, ho, this⟩

/-- White space between a CR and an LF: two breaks become one. -/
theorem not_lines_of_sweep : ∃ d o, ofSource "a\r \n" = .ok d ∧ d.applyEdits d.blankEdits = .ok o ∧
    o.document.text = "a\r\n" ∧ (LineTable.ofString "a\r \n").size = 3 ∧
    (LineTable.ofString o.document.text).size = 2 := by
  obtain ⟨d, hd, h⟩ := exists_ok_of_any (e := ofSource "a\r \n")
    (p := fun d => (d.applyEdits d.blankEdits).toOption.any fun o => o.document.text == "a\r\n") (by decide +kernel)
  obtain ⟨o, ho, htext⟩ := exists_ok_of_any h
  have htext := beq_iff_eq.1 htext
  exact ⟨d, o, hd, ho, htext, by decide +kernel, by rw [htext]; decide +kernel⟩

end Document

end LayoutLint
