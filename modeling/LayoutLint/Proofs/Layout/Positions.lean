import LayoutLint.Proofs.Layout.Boundaries
import LayoutLint.Proofs.Layout.Lines
/-!
# Positions — lines and columns of offsets

The line of an offset is the last one that starts at the offset or in front of it (`lineIndex_spec`), and its column
counts the characters of the line up to there. So an offset between two characters has no position in front of that of
an offset before it (`position_le`). Inside a character there is no column to count to, and the column told is zero.
-/
namespace LayoutLint

open Text (IsBoundary width splitAtByte?)

/-- Positions in the order of the text. -/
def Position.Le (p q : Position) : Prop := p.line < q.line ∨ (p.line = q.line ∧ p.column ≤ q.column)

/-! ### Lines in their text -/

/-- A line stands where it says. -/
theorem exists_of_mem_linesFrom (cs : List Char) : ∀ start, ∀ l ∈ linesFrom start cs,
    ∃ front rest, cs = front ++ (l.text.toList ++ rest) ∧ l.start = start + width front := by
  refine lines_induction (P := fun cs => ∀ start, ∀ l ∈ linesFrom start cs,
    ∃ front rest, cs = front ++ (l.text.toList ++ rest) ∧ l.start = start + width front) ?last ?line cs
  case last =>
    intro q hq start l hl
    rw [linesFrom_unbroken start hq] at hl
    obtain rfl := List.mem_singleton.1 hl
    exact ⟨[], [], by simp, rfl⟩
  case line =>
    intro q e r hq he hr ih start l hl
    rw [linesFrom_line start hq he hr] at hl
    rcases List.mem_cons.1 hl with rfl | hl
    · exact ⟨[], e ++ r, by simp, rfl⟩
    · obtain ⟨front, rest, rfl, hstart⟩ := ih _ l hl
      exact ⟨q ++ e ++ front, rest, by simp only [List.append_assoc], by
        rw [hstart, Text.width_append (q ++ e), Nat.add_assoc]⟩

theorem pairwise_linesFrom (cs : List Char) : ∀ start, (linesFrom start cs).Pairwise fun l m => l.start < m.start := by
  refine lines_induction (P := fun cs => ∀ start, (linesFrom start cs).Pairwise fun l m => l.start < m.start)
    ?last ?line cs
  case last =>
    intro q hq start
    rw [linesFrom_unbroken start hq]
    exact List.pairwise_singleton _ _
  case line =>
    intro q e r hq he hr ih start
    rw [linesFrom_line start hq he hr]
    refine List.pairwise_cons.2 ⟨fun l hl => ?_, ih _⟩
    have hle := start_of_mem_linesFrom.1 l hl
    have hpos := he.width_pos
    rw [Text.width_append] at hle
    show start < l.start
    omega

/-! ### The line of an offset -/

namespace LineTable

/-- **The line of an offset** is the last one that does not start behind it. -/
theorem lineIndex_spec (s : String) (n : Nat) : ∃ l, (ofString s).lines[(ofString s).lineIndex n]? = some l ∧
    l.start ≤ n ∧ ∀ i m, (ofString s).lines[i]? = some m → (ofString s).lineIndex n < i → n < m.start := by
  obtain ⟨p, hindex, hp⟩ : ∃ p : Nat → Bool, (ofString s).lineIndex n = firstWhere p 0 (ofString s).size - 1 ∧
      ∀ i m, (ofString s).lines[i]? = some m → p i = decide (n < m.start) :=
    ⟨_, rfl, fun i m hm => by simp only [hm]⟩
  have hsize : (ofString s).size = (linesFrom 0 s.toList).length := rfl
  have hget : ∀ i, (ofString s).lines[i]? = (linesFrom 0 s.toList)[i]? := fun i => Array.getElem?_toList.symm
  have hmono : ∀ i j, 0 ≤ i → i ≤ j → j < (ofString s).size → p i = true → p j = true := by
    intro i j _ hij hj hi
    rcases Nat.lt_or_eq_of_le hij with hlt | rfl
    · have hj' : j < (linesFrom 0 s.toList).length := hj
      have hi' : i < (linesFrom 0 s.toList).length := Nat.lt_trans hlt hj'
      have hsorted := List.pairwise_iff_getElem.1 (pairwise_linesFrom s.toList 0) i j hi' hj' hlt
      rw [hp i _ ((hget i).trans (List.getElem?_eq_getElem hi')), decide_eq_true_eq] at hi
      rw [hp j _ ((hget j).trans (List.getElem?_eq_getElem hj')), decide_eq_true_eq]
      omega
    · exact hi
  have hbound := (le_firstWhere p 0 (ofString s).size (Nat.zero_le _)).2
  -- The first line starts at zero, so the search passes it.
  have hpos : 0 < firstWhere p 0 (ofString s).size := by
    obtain ⟨first, hfirst, hstart⟩ := head?_linesFrom 0 s.toList
    have hzero : (linesFrom 0 s.toList)[0]? = some first := List.head?_eq_getElem? ▸ hfirst
    have hlt : 0 < (ofString s).size := hsize ▸ (List.getElem?_eq_some_iff.1 hzero).1
    rw [lt_firstWhere_iff p hmono (Nat.le_refl 0) hlt, hp 0 first ((hget 0).trans hzero), hstart]
    exact decide_eq_false (Nat.not_lt_zero n)
  have hlt : (ofString s).lineIndex n < (linesFrom 0 s.toList).length := by
    rw [hindex]
    omega
  have hline := (hget _).trans (List.getElem?_eq_getElem hlt)
  refine ⟨_, hline, ?_, fun i m hm hi => ?_⟩
  · have hnot := (lt_firstWhere_iff p hmono (Nat.zero_le _) hlt).1 (by rw [hindex]; omega)
    rw [hp _ _ hline, decide_eq_false_iff_not] at hnot
    exact Nat.le_of_not_lt hnot
  · have hi' : i < (ofString s).size := (Array.getElem?_eq_some_iff.1 hm).1
    have hnot := mt (lt_firstWhere_iff p hmono (Nat.zero_le _) hi').2 (by rw [hindex] at hi; omega)
    rw [hp i m hm, decide_eq_false_iff_not, Decidable.not_not] at hnot
    exact hnot

theorem lineIndex_mono (s : String) {a b : Nat} (h : a ≤ b) : (ofString s).lineIndex a ≤ (ofString s).lineIndex b := by
  obtain ⟨l, hl, hstart, -⟩ := lineIndex_spec s a
  obtain ⟨-, -, -, hbehind⟩ := lineIndex_spec s b
  refine Nat.le_of_not_lt fun hlt => ?_
  have := hbehind _ l hl hlt
  omega

end LineTable

/-! ### The column of an offset -/

theorem length_le_of_width_le {a b x y : List Char} (h : a ++ x = b ++ y) (hw : width a ≤ width b) :
    a.length ≤ b.length := by
  obtain ⟨c, rfl, -⟩ | ⟨c, rfl, -⟩ := List.append_eq_append_iff.1 h
  · rw [List.length_append]
    exact Nat.le_add_right _ _
  · rw [Text.width_append] at hw
    have hc : c = [] := Text.eq_nil_of_width_eq_zero (by omega)
    exact Nat.le_of_eq (by rw [hc, List.append_nil])

/-- **Columns grow** up to an offset between two characters of the line. -/
theorem Line.column_le {l : Line} {a b : Nat} (h : a ≤ b) (hb : IsBoundary l.text.toList (min b l.stop - l.start)) :
    l.column a ≤ l.column b := by
  obtain ⟨front, rest, htext, hwidth⟩ := hb
  have hcolumn : l.column b = front.length := by
    rw [column, htext, ← hwidth, Text.splitAtByte?_append]
  rw [hcolumn, column]
  split
  · rename_i front' rest' hsplit
    obtain ⟨htext', hwidth'⟩ := Text.width_of_splitAtByte? hsplit
    exact length_le_of_width_le (htext'.trans htext) (by omega)
  · exact Nat.zero_le _

/-- An offset between two characters of the text falls between two of its line, or behind them. -/
theorem Line.isBoundary {l : Line} {cs front rest : List Char} (htext : cs = front ++ (l.text.toList ++ rest))
    (hstart : l.start = width front) {n : Nat} (hn : IsBoundary cs n) (hle : l.start ≤ n) :
    IsBoundary l.text.toList (min n l.stop - l.start) := by
  have hstop : l.stop = l.start + width l.text.toList := congrArg (l.start + ·) (Text.utf8ByteSize_eq_width l.text)
  rw [htext] at hn
  have hin := hn.of_append_left (by omega)
  rw [← hstart] at hin
  rcases Nat.le_total n l.stop with h | h
  · rw [Nat.min_eq_left h]
    exact hin.of_append_right (by omega)
  · rw [Nat.min_eq_right h, hstop, Nat.add_sub_cancel_left]
    exact Text.isBoundary_width _

/-- **Positions follow the offsets**: what is not behind an offset between two characters has no position behind it. -/
theorem LineTable.position_le {s : String} {a b : Nat} (h : a ≤ b) (hb : IsBoundary s.toList b) :
    ((ofString s).position a).Le ((ofString s).position b) := by
  obtain ⟨l, hl, -, -⟩ := lineIndex_spec s a
  obtain ⟨m, hm, hstart, -⟩ := lineIndex_spec s b
  have hposition : ∀ {n : Nat} {k : Line}, (ofString s).lines[(ofString s).lineIndex n]? = some k →
      (ofString s).position n = ⟨(ofString s).lineIndex n + 1, k.column n⟩ := fun hk => by
    simp only [position, hk]
  rw [hposition hl, hposition hm]
  rcases Nat.lt_or_eq_of_le (lineIndex_mono s h) with hlt | heq
  · exact .inl (Nat.succ_lt_succ hlt)
  · obtain rfl : l = m := Option.some.inj (hl.symm.trans (heq ▸ hm))
    obtain ⟨front, rest, htext, hat⟩ :=
      exists_of_mem_linesFrom s.toList 0 l (List.mem_of_getElem? (Array.getElem?_toList.trans hl))
    rw [Nat.zero_add] at hat
    exact .inr ⟨congrArg (· + 1) heq, Line.column_le h (Line.isBoundary htext hat hb hstart)⟩

end LayoutLint
