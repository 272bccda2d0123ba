import LayoutLint.Line
import LayoutLint.Proofs.Lexing.Between
import Mathlib.Data.List.Basic
/-!
# Lines — the lines of a text, one by one

A text is a row of lines that end in a break, and a last one that does not (`lines_induction`). Where a break has just
ended (`Fresh`), the lines of what follows are lines of the text (`linesFrom_append`). Anywhere else a line goes on that
started before (`linesFrom_of_not_fresh`).
-/
namespace LayoutLint

open Text (width)

/-- Text without a line break. -/
def Unbroken (q : List Char) : Prop := ∀ c ∈ q, isBreakChar c = false

theorem unbroken_of_isGap {w : List Char} (hw : ∀ c ∈ w, isGap c = true) : Unbroken w := fun c hc => by
  simpa [isGap] using (Bool.and_eq_true_iff.1 (hw c hc)).2

theorem isBlank_of_isGap {w : List Char} (hw : ∀ c ∈ w, isGap c = true) : ∀ c ∈ w, Text.isBlank c = true := fun c hc =>
  (Bool.and_eq_true_iff.1 (hw c hc)).1

/-- With text in front that holds no line break, a text does not start with an LF. -/
theorem Unbroken.head?_append_ne {q t : List Char} (hq : Unbroken q) (ht : q = [] → t.head? ≠ some '\n') :
    (q ++ t).head? ≠ some '\n' := by
  cases q with
  | nil => exact ht rfl
  | cons c q =>
    intro hc
    have := hq c List.mem_cons_self
    rw [Option.some.inj hc] at this
    cases this

/-- Where a line ends no text without a break stands. -/
theorem Unbroken.eq_nil_of_lineEnd {q t : List Char} (hq : Unbroken q) (h : LineEnd (q ++ t)) : q = [] := by
  cases q with
  | nil => rfl
  | cons c q =>
    have hc := lineEnd_cons.1 h
    rw [hq c List.mem_cons_self] at hc
    cases hc

/-- Is `e` a whole line break when `r` stands behind it? -/
def EndsBefore (e r : List Char) : Prop := e = ['\r'] → r.head? ≠ some '\n'

/-- Does a line start behind `x`, when `y` follows? -/
def Fresh (x y : List Char) : Prop := ∀ c ∈ x.getLast?, isBreakChar c = true ∧ (c = '\r' → y.head? ≠ some '\n')

theorem breakLength_cons_eq_zero {c : Char} {cs : List Char} : breakLength (c :: cs) = 0 ↔ isBreakChar c = false := by
  unfold breakLength
  split
  · rename_i heq
    obtain ⟨rfl, -⟩ := List.cons.inj heq
    simp [isBreakChar]
  · rename_i heq
    obtain ⟨rfl, -⟩ := List.cons.inj heq
    split <;> simp [*]
  · rename_i heq
    cases heq

theorem isBreak_take {cs : List Char} {n : Nat} (h : breakLength cs = n + 1) :
    IsBreak (cs.take (n + 1)) ∧ EndsBefore (cs.take (n + 1)) (cs.drop (n + 1)) := by
  cases cs with
  | nil => cases h
  | cons c cs =>
    have hb : isBreakChar c = true := by
      rw [← Bool.not_eq_false, ← @breakLength_cons_eq_zero c cs, h]
      exact Nat.succ_ne_zero n
    refine ⟨isBreak_of_scan? (b := false) (by rw [scan?_break hb, h]), fun he => ?_⟩
    rcases cs with _ | ⟨d, cs⟩
    · simp
    · intro hd
      have hn : n = 0 := by
        have := congrArg List.length he
        simpa using this
      subst hn
      obtain rfl : c = '\r' := by simpa using he
      obtain rfl : d = '\n' := by simpa using hd
      cases h

theorem takeWhile_unbroken {q : List Char} (hq : Unbroken q) {s : List Char} (hs : LineEnd s) :
    (q ++ s).takeWhile (!isBreakChar ·) = q ∧ (q ++ s).dropWhile (!isBreakChar ·) = s := by
  have hq' : ∀ c ∈ q, (!isBreakChar c) = true := fun c hc => by rw [hq c hc]; rfl
  rw [List.takeWhile_append_of_pos hq', List.dropWhile_append_of_pos hq']
  cases s with
  | nil => simp
  | cons c s =>
    have hc : (!isBreakChar c) = false := by rw [lineEnd_cons.1 hs]; rfl
    simp [hc]

/-- A text is a last line, or a line with its break and a text. -/
theorem line_cases (cs : List Char) : Unbroken cs ∨ ∃ q e r, cs = q ++ (e ++ r) ∧ Unbroken q ∧ IsBreak e ∧
    EndsBefore e r := by
  have hq : Unbroken (cs.takeWhile (!isBreakChar ·)) := by
    intro c hc
    have := List.all_takeWhile (p := (!isBreakChar ·)) (l := cs)
    simpa using List.all_eq_true.1 this c hc
  have htext : cs.takeWhile (!isBreakChar ·) ++ cs.dropWhile (!isBreakChar ·) = cs := List.takeWhile_append_dropWhile
  cases hn : breakLength (cs.dropWhile (!isBreakChar ·)) with
  | zero =>
    have hnil : cs.dropWhile (!isBreakChar ·) = [] := by
      have hhead := List.head?_dropWhile_not (fun c => !isBreakChar c) cs
      cases hc : cs.dropWhile (!isBreakChar ·) with
      | nil => rfl
      | cons c r =>
        rw [hc] at hn hhead
        simp only [List.head?_cons, breakLength_cons_eq_zero.1 hn, Bool.not_false, Bool.true_eq_false] at hhead
    rw [hnil, List.append_nil] at htext
    exact .inl (htext ▸ hq)
  | succ n =>
    obtain ⟨he, hr⟩ := isBreak_take hn
    exact .inr ⟨_, _, _, by rw [List.take_append_drop, htext], hq, he, hr⟩

/-- **A text is made of its lines.** -/
theorem lines_induction {P : List Char → Prop} (last : ∀ q, Unbroken q → P q)
    (line : ∀ q e r, Unbroken q → IsBreak e → EndsBefore e r → P r → P (q ++ (e ++ r))) (cs : List Char) : P cs := by
  rcases line_cases cs with hq | ⟨q, e, r, hcs, hq, he, hr⟩
  · exact last cs hq
  · have hlt : r.length < cs.length := by
      have := List.length_pos_iff.2 he.ne_nil
      rw [hcs, List.length_append, List.length_append]
      omega
    exact hcs ▸ line q e r hq he hr (lines_induction last line r)
termination_by cs.length

theorem splitLinesFrom_unbroken (done : Array Line) (start : Nat) {q : List Char} (hq : Unbroken q) :
    splitLinesFrom done start q = done.push ⟨start, String.ofList q, ""⟩ := by
  obtain ⟨h₁, h₂⟩ := takeWhile_unbroken hq lineEnd_nil
  rw [List.append_nil] at h₁ h₂
  rw [splitLinesFrom]
  split
  · rw [h₁]
  · rename_i n hn
    rw [h₂] at hn
    cases hn

theorem splitLinesFrom_line (done : Array Line) (start : Nat) {q e r : List Char} (hq : Unbroken q) (he : IsBreak e)
    (hr : EndsBefore e r) : splitLinesFrom done start (q ++ (e ++ r)) =
      splitLinesFrom (done.push ⟨start, String.ofList q, String.ofList e⟩) (start + width (q ++ e)) r := by
  have hend : LineEnd (e ++ r) := by
    rcases he with rfl | rfl | rfl <;> exact lineEnd_cons.2 (by decide)
  obtain ⟨h₁, h₂⟩ := takeWhile_unbroken hq hend
  rw [splitLinesFrom]
  split
  · rename_i hn
    rw [h₂, breakLength_append he hr] at hn
    exact absurd (List.length_eq_zero_iff.1 hn) he.ne_nil
  · rename_i n hn
    rw [h₂, breakLength_append he hr] at hn
    have hn : n + 1 = e.length := hn.symm
    simp only [h₁, h₂, hn, List.take_left, List.drop_left]
    congr 1
    simp only [Line.breakStop, Line.stop, Text.utf8ByteSize_eq_width, String.toList_ofList, Text.width_append,
      Nat.add_assoc]

/-- The lines of a text that starts at offset `start`. -/
def linesFrom (start : Nat) (cs : List Char) : List Line := (splitLinesFrom #[] start cs).toList

theorem splitLinesFrom_eq (done : Array Line) (start : Nat) (cs : List Char) :
    (splitLinesFrom done start cs).toList = done.toList ++ linesFrom start cs := by
  induction cs using lines_induction generalizing done start with
  | last q hq => rw [linesFrom, splitLinesFrom_unbroken _ _ hq, splitLinesFrom_unbroken _ _ hq, Array.toList_push]; rfl
  | line q e r hq he hr ih =>
    rw [linesFrom, splitLinesFrom_line _ _ hq he hr, splitLinesFrom_line _ _ hq he hr, ih, ih, Array.toList_push,
      Array.toList_push, List.append_assoc]
    rfl

theorem linesFrom_unbroken (start : Nat) {q : List Char} (hq : Unbroken q) :
    linesFrom start q = [⟨start, String.ofList q, ""⟩] := by
  rw [linesFrom, splitLinesFrom_unbroken _ _ hq]
  rfl

theorem linesFrom_line (start : Nat) {q e r : List Char} (hq : Unbroken q) (he : IsBreak e) (hr : EndsBefore e r) :
    linesFrom start (q ++ (e ++ r)) =
      ⟨start, String.ofList q, String.ofList e⟩ :: linesFrom (start + width (q ++ e)) r := by
  rw [linesFrom, splitLinesFrom_line _ _ hq he hr, splitLinesFrom_eq]
  rfl

/-! ### Where lines start -/

theorem linesFrom_ne_nil (start : Nat) (cs : List Char) : linesFrom start cs ≠ [] := by
  induction cs using lines_induction with
  | last q hq => rw [linesFrom_unbroken _ hq]; exact List.cons_ne_nil _ _
  | line q e r hq he hr => rw [linesFrom_line _ hq he hr]; exact List.cons_ne_nil _ _

/-- The first line starts where the text does. -/
theorem head?_linesFrom (start : Nat) (cs : List Char) : ∃ l ∈ (linesFrom start cs).head?, l.start = start := by
  induction cs using lines_induction with
  | last q hq => rw [linesFrom_unbroken _ hq]; exact ⟨_, rfl, rfl⟩
  | line q e r hq he hr => rw [linesFrom_line _ hq he hr]; exact ⟨_, rfl, rfl⟩

theorem IsBreak.width_pos {e : List Char} (he : IsBreak e) : 0 < width e := by
  rcases he with rfl | rfl | rfl <;> decide

/-- Lines start inside of their text, and those with a break before its end. -/
theorem start_of_mem_linesFrom {start : Nat} {cs : List Char} :
    (∀ l ∈ linesFrom start cs, start ≤ l.start) ∧
      ∀ l ∈ (linesFrom start cs).dropLast, l.start < start + width cs := by
  induction cs using lines_induction generalizing start with
  | last q hq =>
    rw [linesFrom_unbroken _ hq]
    exact ⟨fun l hl => List.mem_singleton.1 hl ▸ Nat.le_refl _, fun l hl => absurd hl List.not_mem_nil⟩
  | line q e r hq he hr ih =>
    obtain ⟨h₁, h₂⟩ := @ih (start + width (q ++ e))
    have hpos := he.width_pos
    rw [linesFrom_line _ hq he hr, List.dropLast_cons_of_ne_nil (linesFrom_ne_nil _ r)]
    simp only [Text.width_append] at h₁ h₂ ⊢
    refine ⟨fun l hl => ?_, fun l hl => ?_⟩
    · rcases List.mem_cons.1 hl with rfl | hl
      · exact Nat.le_refl _
      · have := h₁ l hl
        omega
    · rcases List.mem_cons.1 hl with rfl | hl
      · show start < _
        omega
      · have := h₂ l hl
        omega

/-- The last line is empty when a text is, or ends in a break. -/
theorem getLast?_linesFrom (start : Nat) (cs : List Char) : ∃ l ∈ (linesFrom start cs).getLast?,
    (l.isEmpty = true ↔ ∀ c ∈ cs.getLast?, isBreakChar c = true) := by
  induction cs using lines_induction generalizing start with
  | last q hq =>
    rw [linesFrom_unbroken _ hq]
    refine ⟨_, rfl, ?_⟩
    rw [Line.isEmpty, String.isEmpty_iff]
    constructor
    · intro h
      have htext : String.ofList q = "" := h
      have hnil : q = [] := by
        have := congrArg String.toList htext
        rwa [String.toList_ofList] at this
      rw [hnil]
      exact fun c hc => absurd hc (by simp)
    · intro h
      rcases List.eq_nil_or_concat q with rfl | ⟨p, c, rfl⟩
      · rfl
      · have hc := h c (by simp)
        rw [hq c (by simp)] at hc
        cases hc
  | line q e r hq he hr ih =>
    obtain ⟨l, hl, hiff⟩ := ih (start + width (q ++ e))
    rw [linesFrom_line _ hq he hr]
    refine ⟨l, ?_, ?_⟩
    · rw [List.getLast?_cons_of_ne_nil (linesFrom_ne_nil _ r)]
      exact hl
    · rw [hiff]
      by_cases hnil : r = []
      · subst hnil
        rw [List.append_nil]
        refine ⟨fun _ c hc => ?_, fun _ c hc => absurd hc (by simp)⟩
        rw [List.getLast?_append_of_ne_nil _ he.ne_nil] at hc
        exact he.all c (List.mem_of_getLast? hc)
      · rw [List.getLast?_append_of_ne_nil _ (by simp [hnil]), List.getLast?_append_of_ne_nil _ hnil]

/-- The lines of blank text are blank. -/
theorem isBlank_of_mem_linesFrom {start : Nat} {cs : List Char} (h : ∀ c ∈ cs, Text.isBlank c = true) :
    ∀ l ∈ linesFrom start cs, l.isBlank = true := by
  induction cs using lines_induction generalizing start with
  | last q hq =>
    rw [linesFrom_unbroken _ hq]
    intro l hl
    rw [List.mem_singleton.1 hl]
    exact List.all_eq_true.2 (by rwa [String.toList_ofList])
  | line q e r hq he hr ih =>
    rw [linesFrom_line _ hq he hr]
    intro l hl
    rcases List.mem_cons.1 hl with rfl | hl
    · refine List.all_eq_true.2 ?_
      rw [String.toList_ofList]
      exact fun c hc => h c (List.mem_append_left _ hc)
    · exact ih (fun c hc => h c (List.mem_append_right _ (List.mem_append_right _ hc))) l hl

/-! ### The lines of a text and of what follows it -/

theorem Fresh.of_append {x y z : List Char} (h : Fresh (x ++ y) z) : Fresh y z := by
  intro c hc
  refine h c ?_
  rw [List.getLast?_append, Option.mem_def.1 hc]
  rfl

theorem fresh_of_break {x e r : List Char} (he : IsBreak e) (hr : EndsBefore e r) : Fresh (x ++ e) r := by
  intro c hc
  rw [List.getLast?_append_of_ne_nil _ he.ne_nil] at hc
  refine ⟨he.all c (List.mem_of_getLast? hc), ?_⟩
  rintro rfl
  rcases he with rfl | rfl | rfl
  · exact hr rfl
  · cases hc
  · cases hc

/-- **Where a line starts, the lines of what follows are lines of the text.** -/
theorem linesFrom_append {start : Nat} {x y : List Char} (h : Fresh x y) :
    linesFrom start (x ++ y) = (linesFrom start x).dropLast ++ linesFrom (start + width x) y := by
  induction x using lines_induction generalizing start with
  | last q hq =>
    obtain rfl : q = [] := by
      rcases List.eq_nil_or_concat q with rfl | ⟨p, c, rfl⟩
      · rfl
      · have := (h c (by simp)).1
        rw [hq c (by simp)] at this
        cases this
    rw [linesFrom_unbroken _ hq]
    rfl
  | line q e r hq he hr ih =>
    have hry : EndsBefore e (r ++ y) := by
      intro hcr
      cases r with
      | nil =>
        rw [hcr] at h
        exact (h '\r' (by simp)).2 rfl
      | cons c r => exact hr hcr
    rw [List.append_assoc, List.append_assoc, linesFrom_line _ hq he hry, linesFrom_line _ hq he hr,
      List.dropLast_cons_of_ne_nil (linesFrom_ne_nil _ r), ih (h.of_append.of_append), List.cons_append]
    simp only [Text.width_append, Nat.add_assoc]

/-- A text is its lines with their breaks, and then a last line. -/
theorem exists_last_line (x : List Char) : ∃ p q, x = p ++ q ∧ Unbroken q ∧ ∀ y, (q ++ y).head? ≠ some '\n' →
    Fresh p (q ++ y) := by
  induction x using lines_induction with
  | last q hq => exact ⟨[], q, rfl, hq, fun _ _ c hc => absurd hc (by simp)⟩
  | line q e r hq he hr ih =>
    obtain ⟨p, t, rfl, ht, hfresh⟩ := ih
    refine ⟨q ++ e ++ p, t, by simp, ht, fun y hy => ?_⟩
    cases p with
    | nil =>
      rw [List.append_nil]
      exact fresh_of_break he fun _ => hy
    | cons c p =>
      intro d hd
      rw [List.getLast?_append_of_ne_nil _ (List.cons_ne_nil c p)] at hd
      exact hfresh y hy d hd

/-- A line that starts behind `p`, before the end of `x`, hides where `x` ends. -/
theorem linesFrom_of_line {start : Nat} {x y p q e r : List Char} (htext : x ++ y = p ++ (q ++ e)) (hq : Unbroken q)
    (he : IsBreak e) (hr : EndsBefore e r) (hfresh : Fresh p (q ++ (e ++ r))) (hlt : width p < width x) :
    ∃ front, linesFrom start (x ++ (y ++ r)) = front ++ linesFrom (start + width (x ++ y)) r ∧
      ∀ l ∈ front, l.start < start + width x := by
  refine ⟨(linesFrom start p).dropLast ++ [⟨start + width p, String.ofList q, String.ofList e⟩], ?_, fun l hl => ?_⟩
  · rw [← List.append_assoc, htext, List.append_assoc, List.append_assoc, linesFrom_append hfresh,
      linesFrom_line _ hq he hr, List.append_assoc]
    simp only [Text.width_append, Nat.add_assoc]
    rfl
  · rcases List.mem_append.1 hl with hl | hl
    · have := start_of_mem_linesFrom.2 l hl
      omega
    · rw [List.mem_singleton.1 hl]
      show start + width p < _
      omega

/-- **A line that goes on started before**: behind the last break of `x` that the rest does not belong to. -/
theorem linesFrom_of_not_fresh {start : Nat} {x u e r : List Char} (hu : Unbroken u) (he : IsBreak e)
    (hr : EndsBefore e r) (h : ¬ Fresh x (u ++ (e ++ r))) :
    ∃ front, linesFrom start (x ++ (u ++ (e ++ r))) = front ++ linesFrom (start + width (x ++ (u ++ e))) r ∧
      ∀ l ∈ front, l.start < start + width x := by
  rw [← List.append_assoc u]
  obtain ⟨p, q, rfl, hq, hfresh⟩ := exists_last_line x
  by_cases hnil : q = []
  · subst hnil
    rw [List.append_nil] at h ⊢
    have hlf : (u ++ (e ++ r)).head? = some '\n' := Classical.byContradiction fun hne => h (hfresh _ hne)
    obtain rfl : u = [] := by
      cases u with
      | nil => rfl
      | cons c u =>
        have := hu c List.mem_cons_self
        rw [Option.some.inj hlf] at this
        cases this
    obtain rfl : e = ['\n'] := by
      rcases he with rfl | rfl | rfl
      · cases hlf
      · rfl
      · cases hlf
    obtain ⟨x, rfl⟩ : ∃ x, p = x ++ ['\r'] := by
      rcases List.eq_nil_or_concat p with rfl | ⟨x, c, rfl⟩
      · exact absurd (fun c hc => absurd hc (by simp)) h
      · refine ⟨x, ?_⟩
        rw [List.concat_eq_append] at h hfresh ⊢
        have hc := (hfresh [] (by simp) c (by simp)).1
        by_cases hcr : c = '\r'
        · rw [hcr]
        · refine absurd (fun d hd => ?_) h
          obtain rfl : c = d := by simpa using hd
          exact ⟨hc, fun h => absurd h hcr⟩
    obtain ⟨p, q, rfl, hq, hfresh⟩ := exists_last_line x
    refine linesFrom_of_line (p := p) (q := q) (e := ['\r', '\n']) (by simp) hq (.inr (.inr rfl))
      (fun h => absurd h (by decide))
      (hfresh _ (hq.head?_append_ne fun _ => by simp)) ?_
    have : 0 < width ['\r'] := by decide
    rw [Text.width_append, Text.width_append]
    omega
  · refine linesFrom_of_line (p := p) (q := q ++ u) (e := e) (by simp)
      (fun c hc => (List.mem_append.1 hc).elim (hq c) (hu c)) he hr ?_ ?_
    · rw [List.append_assoc]
      exact hfresh _ (hq.head?_append_ne fun h => absurd h hnil)
    · obtain ⟨c, q, rfl⟩ := List.exists_cons_of_ne_nil hnil
      have := Char.utf8Size_pos c
      rw [Text.width_append, Text.width_cons]
      omega

end LayoutLint
