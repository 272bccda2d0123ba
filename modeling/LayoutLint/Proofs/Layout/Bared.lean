import LayoutLint.Proofs.Layout.Lines
import LayoutLint.Proofs.Layout.Tiling
/-!
# Bared — the lines of a text without the blanks at their ends

Blanks in front of a line break, or in front of the end of a text, can be left out of it without harm to the lines, but
for one place: a CR and an LF with nothing but blanks between them are two breaks, and one break without the blanks
(`bared_of_blanks`). So a text with runs of blanks left out (`Bares`) has the lines of the text, each without blanks at
its end, and the lines are fewer by the number of runs between a CR and an LF (`Bares.lines`).
-/
namespace LayoutLint

open Text (width)

namespace Line

/-- The text of the line is that of the old one, which goes on with blanks only. -/
def TrimsTo (old new : Line) : Prop :=
  ∃ w : List Char, (∀ c ∈ w, Text.isBlank c = true) ∧ old.text.toList = new.text.toList ++ w

/-- A line of which nothing but blanks at its end is left out. -/
structure Kept (old new : Line) : Prop where
  text : old.TrimsTo new
  lineBreak : new.lineBreak = old.lineBreak

variable {a b c : Line}

theorem TrimsTo.trans (h : a.TrimsTo b) (h' : b.TrimsTo c) : a.TrimsTo c := by
  obtain ⟨v, hv, hab⟩ := h
  obtain ⟨w, hw, hbc⟩ := h'
  refine ⟨w ++ v, fun x hx => (List.mem_append.1 hx).elim (hw x) (hv x), ?_⟩
  rw [hab, hbc, List.append_assoc]

theorem Kept.trans (h : a.Kept b) (h' : b.Kept c) : a.Kept c :=
  ⟨h.text.trans h'.text, h'.lineBreak.trans h.lineBreak⟩

theorem TrimsTo.isBlank (h : a.TrimsTo b) (hb : b.isBlank = true) : a.isBlank = true := by
  obtain ⟨w, hw, hab⟩ := h
  show a.text.toList.all Text.isBlank = true
  rw [hab, List.all_append, Bool.and_eq_true]
  exact ⟨hb, List.all_eq_true.2 hw⟩

/-- A line that starts elsewhere. -/
theorem kept_of_eq (ht : a.text = b.text) (hb : b.lineBreak = a.lineBreak) : a.Kept b :=
  ⟨⟨[], fun _ h => absurd h List.not_mem_nil, by rw [ht, List.append_nil]⟩, hb⟩

end Line

/-- The old lines, each kept but for blanks at its end. A blank line between a CR and an LF may be gone, and the two
breaks are one then; `k` lines are gone in this way. -/
inductive BaredLines : Nat → List Line → List Line → Prop
  | nil : BaredLines 0 [] []
  | keep {k : Nat} {old new : Line} {olds news : List Line} : old.Kept new → BaredLines k olds news →
    BaredLines k (old :: olds) (new :: news)
  | join {k : Nat} {old blank new : Line} {olds news : List Line} : old.TrimsTo new → old.lineBreak = "\r" →
    blank.isBlank = true → blank.lineBreak = "\n" → new.lineBreak = "\r\n" → BaredLines k olds news →
    BaredLines (k + 1) (old :: blank :: olds) (new :: news)

namespace BaredLines

variable {k l : Nat} {a b c : List Line}

theorem length_eq (h : BaredLines k a b) : b.length + k = a.length := by
  induction h with
  | nil => rfl
  | keep _ _ ih => rw [List.length_cons, List.length_cons, ← ih, Nat.add_right_comm]
  | join _ _ _ _ _ _ ih => rw [List.length_cons, List.length_cons, List.length_cons, ← ih]; omega

/-- **When no line is gone each line is kept.** -/
theorem forall₂ (h : BaredLines k a b) (hk : k = 0) : List.Forall₂ Line.Kept a b := by
  induction h with
  | nil => exact .nil
  | keep hkept _ ih => exact .cons hkept (ih hk)
  | join => exact absurd hk (Nat.succ_ne_zero _)

/-- **Blanks that are left out one after another.** What was two lines once is not taken for one half of a break. -/
theorem trans (h : BaredLines k a b) (h' : BaredLines l b c) : BaredLines (k + l) a c := by
  induction h' generalizing k a with
  | nil =>
    cases h with
    | nil => exact .nil
  | keep hkept _ ih =>
    cases h with
    | keep hkept' h => exact .keep (hkept'.trans hkept) (ih h)
    | join htrims hcr hblank hlf hcrlf h =>
      rw [Nat.add_right_comm]
      exact .join (htrims.trans hkept.text) hcr hblank hlf (hkept.lineBreak.trans hcrlf) (ih h)
  | join htrims hcr hblank hlf hcrlf _ ih =>
    cases h with
    | join _ _ _ _ hcrlf' => exact absurd (hcr.symm.trans hcrlf') (by decide)
    | keep hkept h =>
      cases h with
      | join _ _ _ _ hcrlf' => exact absurd (hlf.symm.trans hcrlf') (by decide)
      | keep hkept' h =>
        exact .join (hkept.text.trans htrims) (hkept.lineBreak.symm.trans hcr) (hkept'.text.isBlank hblank)
          (hkept'.lineBreak.symm.trans hlf) hcrlf (ih h)

/-- The lines of a text do not depend on where it starts. -/
theorem linesFrom (m n : Nat) (cs : List Char) : BaredLines 0 (linesFrom m cs) (linesFrom n cs) := by
  induction cs using lines_induction generalizing m n with
  | last q hq =>
    rw [linesFrom_unbroken _ hq, linesFrom_unbroken _ hq]
    exact .keep (Line.kept_of_eq rfl rfl) .nil
  | line q e r hq he hr ih =>
    rw [linesFrom_line _ hq he hr, linesFrom_line _ hq he hr]
    exact .keep (Line.kept_of_eq rfl rfl) (ih _ _)

theorem append_left (h : BaredLines k a b) : ∀ l : List Line, BaredLines k (l ++ a) (l ++ b)
  | [] => h
  | _ :: l => .keep (Line.kept_of_eq rfl rfl) (h.append_left l)

end BaredLines

/-! ### One run of blanks -/

/-- Where a line ends the text ends, or a break follows. -/
theorem LineEnd.cases {y : List Char} (h : LineEnd y) : y = [] ∨ ∃ e r, y = e ++ r ∧ IsBreak e ∧ EndsBefore e r := by
  rcases line_cases y with hq | ⟨q, e, r, rfl, hq, he, hr⟩
  · exact .inl (hq.eq_nil_of_lineEnd (by rwa [List.append_nil]))
  · obtain rfl := hq.eq_nil_of_lineEnd h
    exact .inr ⟨e, r, rfl, he, hr⟩

variable {x w y : List Char}

/-- Blanks between a CR and an LF: without them the two are one break. -/
theorem bared_between (hw : w ≠ []) (hgap : ∀ c ∈ w, isGap c = true) :
    BaredLines 1 (linesFrom 0 (x ++ ['\r'] ++ (w ++ '\n' :: y))) (linesFrom 0 (x ++ ['\r'] ++ '\n' :: y)) := by
  obtain ⟨p, q, rfl, hq, hfresh⟩ := exists_last_line x
  have hhead : ∀ s : List Char, (q ++ ('\r' :: s)).head? ≠ some '\n' := fun s =>
    hq.head?_append_ne fun _ => by simp
  have hcr : EndsBefore ['\r'] (w ++ (['\n'] ++ y)) := fun _ =>
    (unbroken_of_isGap hgap).head?_append_ne fun hnil => absurd hnil hw
  have hold : p ++ q ++ ['\r'] ++ (w ++ '\n' :: y) = p ++ (q ++ (['\r'] ++ (w ++ (['\n'] ++ y)))) := by simp
  have hnew : p ++ q ++ ['\r'] ++ '\n' :: y = p ++ (q ++ (['\r', '\n'] ++ y)) := by simp
  have hfreshOld : Fresh p (q ++ (['\r'] ++ (w ++ (['\n'] ++ y)))) := hfresh _ (hhead _)
  have hfreshNew : Fresh p (q ++ (['\r', '\n'] ++ y)) := hfresh _ (hhead _)
  rw [hold, hnew, linesFrom_append hfreshOld, linesFrom_append hfreshNew, linesFrom_line _ hq (.inl rfl) hcr,
    linesFrom_line _ (unbroken_of_isGap hgap) (.inr (.inl rfl)) (fun h => nomatch h),
    linesFrom_line _ hq (.inr (.inr rfl)) fun h => nomatch h]
  refine .append_left (.join ⟨[], by simp, by simp⟩ rfl ?_ rfl rfl (.linesFrom _ _ y)) _
  refine List.all_eq_true.2 ?_
  rw [String.toList_ofList]
  exact isBlank_of_isGap hgap

/-- Blanks anywhere else at the end of a line: each line is kept. -/
theorem bared_apart (hw : w ≠ []) (hgap : ∀ c ∈ w, isGap c = true) (hy : LineEnd y)
    (hnot : ¬ (x.getLast? = some '\r' ∧ y.head? = some '\n')) :
    BaredLines 0 (linesFrom 0 (x ++ (w ++ y))) (linesFrom 0 (x ++ y)) := by
  obtain ⟨p, q, rfl, hq, hfresh⟩ := exists_last_line x
  have hqw : Unbroken (q ++ w) := fun c hc => (List.mem_append.1 hc).elim (hq c) (unbroken_of_isGap hgap c)
  have hold : Fresh p (q ++ (w ++ y)) := by
    refine hfresh _ ?_
    rw [← List.append_assoc]
    exact hqw.head?_append_ne fun hnil => absurd (List.append_eq_nil_iff.1 hnil).2 hw
  have hnew : Fresh p (q ++ y) := by
    cases q with
    | cons c q => exact hfresh y (hq.head?_append_ne fun hnil => absurd hnil (List.cons_ne_nil c q))
    | nil =>
      intro c hc
      refine ⟨(hfresh [] (by simp) c hc).1, fun hcr hlf => hnot ⟨?_, hlf⟩⟩
      rw [List.append_nil, Option.mem_def.1 hc, hcr]
  have htrims : ∀ {start start' : Nat} {e : String}, Line.Kept ⟨start, String.ofList (q ++ w), e⟩
      ⟨start', String.ofList q, e⟩ := ⟨⟨w, isBlank_of_isGap hgap, by simp⟩, rfl⟩
  rw [List.append_assoc, List.append_assoc, linesFrom_append hold, linesFrom_append hnew, ← List.append_assoc q w y]
  refine .append_left ?_ _
  rcases hy.cases with rfl | ⟨e, r, rfl, he, hr⟩
  · rw [List.append_nil, List.append_nil, linesFrom_unbroken _ hqw, linesFrom_unbroken _ hq]
    exact .keep htrims .nil
  · rw [linesFrom_line _ hqw he hr, linesFrom_line _ hq he hr]
    exact .keep htrims (.linesFrom _ _ r)

/-- **Blanks at the end of a line, left out of a text.** -/
theorem bared_of_blanks (hw : w ≠ []) (hgap : ∀ c ∈ w, isGap c = true) (hy : LineEnd y) :
    BaredLines (if x.getLast? = some '\r' ∧ y.head? = some '\n' then 1 else 0)
      (linesFrom 0 (x ++ (w ++ y))) (linesFrom 0 (x ++ y)) := by
  split
  · rename_i h
    obtain ⟨x, rfl⟩ := List.getLast?_eq_some_iff.1 h.1
    obtain ⟨y, rfl⟩ := List.head?_eq_some_iff.1 h.2
    exact bared_between hw hgap
  · rename_i h
    exact bared_apart hw hgap hy h

/-! ### Runs of blanks -/

namespace Text

/-- Does the region stand directly between a CR and an LF? -/
def splitsBreak (cs : List Char) (s : Span) : Bool :=
  slice? (s.start - 1) s.start cs == some ['\r'] && slice? s.stop (s.stop + 1) cs == some ['\n']

theorem splitsBreak_iff (x w y : List Char) :
    splitsBreak (x ++ (w ++ y)) ⟨width x, width x + width w⟩ = true ↔
      x.getLast? = some '\r' ∧ y.head? = some '\n' := by
  have hcr : width ['\r'] = 1 := rfl
  have hlf : width ['\n'] = 1 := rfl
  rw [splitsBreak, Bool.and_eq_true, beq_iff_eq, beq_iff_eq, slice?_eq_some_iff, slice?_eq_some_iff]
  dsimp only
  constructor
  · rintro ⟨⟨a, b, hfront, hstart, hstop⟩, a', b', hback, hstart', -⟩
    rw [← List.append_assoc a] at hfront
    obtain ⟨rfl, -⟩ := append_inj_of_width hfront (by rw [width_append]; omega)
    rw [← List.append_assoc] at hback
    obtain ⟨-, rfl⟩ := append_inj_of_width hback (by rw [width_append]; omega)
    exact ⟨by simp, rfl⟩
  · rintro ⟨hx, hy⟩
    obtain ⟨x, rfl⟩ := List.getLast?_eq_some_iff.1 hx
    obtain ⟨y, rfl⟩ := List.head?_eq_some_iff.1 hy
    refine ⟨⟨x, w ++ '\n' :: y, by simp, ?_, ?_⟩, x ++ ['\r'] ++ w, y, by simp, ?_, ?_⟩ <;>
      simp only [width_append, hcr, hlf] <;> omega

end Text

/-- The text, which starts at offset `n`, with the blanks in the regions left out. The regions stand at the ends of
lines. -/
inductive Bares : Nat → List Span → List Char → List Char → Prop
  | nil (n : Nat) (cs : List Char) : Bares n [] cs cs
  | run {n : Nat} {f w r r' : List Char} {spans : List Span} : w ≠ [] → (∀ c ∈ w, isGap c = true) → LineEnd r →
    Bares (n + width f + width w) spans r r' →
    Bares n (⟨n + width f, n + width f + width w⟩ :: spans) (f ++ (w ++ r)) (f ++ r')

namespace Bares

variable {n : Nat} {spans : List Span} {cs cs' : List Char}

/-- Text in front of what is left out. -/
theorem append_left (x : List Char) (h : Bares (n + width x) spans cs cs') : Bares n spans (x ++ cs) (x ++ cs') := by
  cases h with
  | nil => exact .nil n _
  | @run _ f w r r' _ hw hgap hend h =>
    rw [← List.append_assoc x f, ← List.append_assoc x f, Nat.add_assoc n, ← Text.width_append]
    rw [Nat.add_assoc n, ← Text.width_append] at h
    exact .run hw hgap hend h

/-- Where a line ends, one does without the blanks behind. -/
theorem head?_eq (h : Bares n spans cs cs') (hend : LineEnd cs) : cs'.head? = cs.head? := by
  cases h with
  | nil => rfl
  | @run _ f w r r' _ hw hgap _ h =>
    cases f with
    | cons c f => rfl
    | nil => exact absurd ((unbroken_of_isGap hgap).eq_nil_of_lineEnd hend) hw

/-- **The lines of a text with runs of blanks left out.** -/
theorem lines (h : Bares n spans cs cs') {x : List Char} (hx : width x = n) :
    BaredLines (spans.countP (Text.splitsBreak (x ++ cs))) (linesFrom 0 (x ++ cs)) (linesFrom 0 (x ++ cs')) := by
  induction h generalizing x with
  | nil => exact .linesFrom 0 0 _
  | @run n f w r r' spans hw hgap hend h ih =>
    -- The later runs are left out first: what stands in front of them is still the old text.
    have hlater := ih (x := x ++ f ++ w) (by rw [Text.width_append, Text.width_append, hx])
    have hhead := h.head?_eq hend
    have hhere := bared_of_blanks (x := x ++ f) hw hgap (y := r') fun c hc => hend c (hhead ▸ hc)
    have hsplit := Text.splitsBreak_iff (x ++ f) w r
    rw [Text.width_append, hx] at hsplit
    rw [hhead] at hhere
    simp only [← hsplit] at hhere
    simp only [List.append_assoc] at hlater hhere ⊢
    rw [List.countP_cons]
    exact hlater.trans hhere

end Bares

end LayoutLint
