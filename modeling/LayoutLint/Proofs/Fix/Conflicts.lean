import LayoutLint.Proofs.Fix.Edits
import LayoutLint.Proofs.Fix.Selection
/-!
# Conflicts — which edits of a text exclude one another

Two edits for one gap exclude one another, unless both take away white space; edits for different gaps do not. The edit
for the end of the text excludes those that take white space away behind its start, and no others
(`Document.Parsed.runEdit_conflictsWith_endEdit`).
-/
namespace LayoutLint

theorem Edit.conflictsWith_iff_of_bytes {e f : Edit} (he : e.span.start < e.span.stop)
    (hf : f.span.start < f.span.stop) :
    e.conflictsWith f = true ↔ e.span.start < f.span.stop ∧ f.span.start < e.span.stop := by
  have hne : e.span.isEmpty = false := beq_eq_false_iff_ne.2 (Nat.ne_of_lt he)
  have hnf : f.span.isEmpty = false := beq_eq_false_iff_ne.2 (Nat.ne_of_lt hf)
  rw [Edit.conflictsWith, Span.conflictsWith, hne, hnf, Span.intersects, Bool.and_eq_true, decide_eq_true_eq,
    decide_eq_true_eq]

/-- Edits that own the same region exclude one another. -/
theorem Edit.conflictsWith_of_span_eq {e f : Edit} (h : e.span = f.span) (hle : e.span.start ≤ e.span.stop) :
    e.conflictsWith f = true := by
  rcases Nat.lt_or_eq_of_le hle with hlt | heq
  · exact (conflictsWith_iff_of_bytes hlt (h ▸ hlt)).2 ⟨h ▸ hlt, h ▸ hlt⟩
  · have hemp : e.span.isEmpty = true := beq_iff_eq.2 heq
    rw [Edit.conflictsWith, Span.conflictsWith, ← h, hemp]
    exact beq_self_eq_true _

/-- An edit behind another one does not exclude it. -/
theorem Edit.conflictsWith_eq_false_of_stop_le {e f : Edit} (h : e.span.stop ≤ f.span.start)
    (hne : e.span.start < f.span.start ∨ e.span.start < e.span.stop ∨ f.span.start < f.span.stop) :
    e.conflictsWith f = false := by
  unfold Edit.conflictsWith Span.conflictsWith Span.intersects Span.isEmpty
  cases hx : e.span.start == e.span.stop <;> cases hy : f.span.start == f.span.stop <;>
    simp only [beq_iff_eq, beq_eq_false_iff_ne] at hx hy <;>
    simp only [Bool.and_eq_false_iff, decide_eq_false_iff_not, beq_eq_false_iff_ne] <;> omega

/-- Of edits that exclude one another in no pair two are the same when they exclude one another. -/
theorem AllClear.eq_of_conflictsWith {S : List Edit} (h : AllClear S) {e f : Edit} (he : e ∈ S) (hf : f ∈ S)
    (hc : e.conflictsWith f = true) : e = f := by
  induction S with
  | nil => cases he
  | cons g S ih =>
    obtain ⟨hg, hS⟩ := List.pairwise_cons.1 h
    rcases List.mem_cons.1 he with rfl | he'
    · rcases List.mem_cons.1 hf with rfl | hf'
      · rfl
      · rw [hg f hf'] at hc
        cases hc
    · rcases List.mem_cons.1 hf with rfl | hf'
      · rw [Edit.conflictsWith_comm, hg e he'] at hc
        cases hc
      · exact ih hS he' hf'

namespace Document

variable {d : Document}

theorem gapEdit_span (d : Document) (k : GapContract) (id : String) {j : Nat} (hj : j + 1 < d.size) :
    (d.gapEdit k id j).span = ⟨d.gapStart (j + 1), d.gapStart (j + 1) + Trivia.listWidth (d.gap (j + 1))⟩ := by
  rw [← d.span_start hj]
  rfl

theorem runEdit_span (d : Document) {j i : Nat} {t : Trivia} (ht : (d.gap j)[i]? = some t) :
    (d.runEdit j i t).span = ⟨d.gapStart j + Trivia.listWidth ((d.gap j).take i),
      d.gapStart j + Trivia.listWidth ((d.gap j).take (i + 1))⟩ :=
  congrArg (Span.mk _) (d.placeAt_stop ht)

theorem Parsed.runEdit_conflictsWith_gapEdit (h : d.Parsed) {j i : Nat} {t : Trivia} (hj : j + 1 < d.size)
    (ht : (d.gap (j + 1))[i]? = some t) (k : GapContract) (id : String) :
    (d.runEdit (j + 1) i t).conflictsWith (d.gapEdit k id j) = true := by
  have hlt := listWidth_pos_of_getElem? h ht
  have hle := Trivia.listWidth_take_le (d.gap (j + 1)) (i + 1)
  have hr := d.runEdit_span ht
  have hg := d.gapEdit_span k id hj
  rw [Edit.conflictsWith_iff_of_bytes, hr, hg]
  · dsimp only
    omega
  · rw [hr]
    dsimp only
    omega
  · rw [hg]
    dsimp only
    omega

theorem gapEdit_conflictsWith_gapEdit (d : Document) {j : Nat} (hj : j + 1 < d.size) (k k' : GapContract)
    (id id' : String) : (d.gapEdit k id j).conflictsWith (d.gapEdit k' id' j) = true := by
  refine Edit.conflictsWith_of_span_eq rfl ?_
  rw [d.gapEdit_span k id hj]
  exact Nat.le_add_right _ _

theorem EndCut.start_le {b : FinalBreak} {keep : Nat} {added : List Trivia} (h : d.Proper)
    (hc : d.EndCut b keep added) :
    b.span.start ≤ b.span.stop := by
  have hs := d.size_eq
  obtain ⟨n, -, -, hstart, -⟩ := hc.start
  have hend := d.span_start (j := d.endOfFile) (by omega)
  rw [h.span_endOfFile] at hend
  have hle := Trivia.listWidth_take_le (d.gap d.endOfFile) n
  rw [hstart, hc.stop]
  show _ + Trivia.listWidth ((d.gap d.endOfFile).take n) ≤ d.length
  have hend : d.length = d.gapStart d.endOfFile + Trivia.listWidth (d.gap d.endOfFile) := hend
  omega

theorem endEdit_conflictsWith_endEdit {b : FinalBreak} {keep keep' : Nat} {added added' : List Trivia} {id : String}
    (h : d.Proper) (hc : d.EndCut b keep added) :
    (d.endEdit id b.span keep added).conflictsWith (d.endEdit id b.span keep' added') = true :=
  Edit.conflictsWith_of_span_eq rfl (hc.start_le h)

/-- The edit for the end excludes those that take white space away behind its start. -/
theorem Parsed.runEdit_conflictsWith_endEdit (h : d.Parsed) {b : FinalBreak} {keep n i : Nat} {added : List Trivia}
    {t : Trivia} {r : String} (hc : d.EndCut b keep added)
    (hstart : b.span.start = d.gapStart d.endOfFile + Trivia.listWidth (d.tail.take n))
    (ht : (d.gap d.endOfFile)[i]? = some t) :
    (d.runEdit d.endOfFile i t).conflictsWith (d.endEdit r b.span keep added) = true ↔ n ≤ i := by
  have hs := d.size_eq
  have hlt := listWidth_pos_of_getElem? h ht
  have hle := Trivia.listWidth_take_le (d.gap d.endOfFile) (i + 1)
  have hr := d.runEdit_span ht
  have hend := d.span_start (j := d.endOfFile) (by omega)
  rw [h.proper.span_endOfFile] at hend
  have hend : d.length = d.gapStart d.endOfFile + Trivia.listWidth (d.gap d.endOfFile) := hend
  have hspan : (d.endEdit r b.span keep added).span =
      ⟨d.gapStart d.endOfFile + Trivia.listWidth ((d.gap d.endOfFile).take n), d.length⟩ := by
    rw [← hc.stop]
    exact congrArg (Span.mk · _) hstart
  constructor
  · intro hconf
    rcases Nat.lt_or_ge i n with hin | hin
    · have hmono : Trivia.listWidth ((d.gap d.endOfFile).take (i + 1)) ≤ _ := listWidth_take_mono _ hin
      have hle' := Trivia.listWidth_take_le (d.gap d.endOfFile) n
      rw [Edit.conflictsWith_eq_false_of_stop_le] at hconf
      · cases hconf
      all_goals
        rw [hr]
        try rw [hspan]
        dsimp only
        omega
    · exact hin
  · intro hni
    have hmono := listWidth_take_mono (d.gap d.endOfFile) hni
    rw [Edit.conflictsWith_iff_of_bytes, hr, hspan]
    · dsimp only
      omega
    · rw [hr]
      dsimp only
      omega
    · rw [hspan]
      dsimp only
      omega

/-- The region of an edit is in the gap in front of token `j`. -/
structure Within (d : Document) (e : Edit) (j : Nat) : Prop where
  lt : j < d.size
  start : d.gapStart j ≤ e.span.start
  le : e.span.start ≤ e.span.stop
  stop : e.span.stop ≤ d.gapStart j + Trivia.listWidth (d.gap j)

theorem within_gapEdit (d : Document) (k : GapContract) (id : String) {j : Nat} (hj : j + 1 < d.size) :
    d.Within (d.gapEdit k id j) (j + 1) := by
  have hspan := d.gapEdit_span k id hj
  exact ⟨hj, by simp [hspan], by simp [hspan], by simp [hspan]⟩

theorem within_runEdit (d : Document) {j i : Nat} {t : Trivia} (hj : j < d.size) (ht : (d.gap j)[i]? = some t) :
    d.Within (d.runEdit j i t) j := by
  have hspan := d.runEdit_span ht
  have hmono : _ ≤ Trivia.listWidth ((d.gap j).take (i + 1)) := listWidth_take_mono (d.gap j) (Nat.le_succ i)
  have hle := Trivia.listWidth_take_le (d.gap j) (i + 1)
  exact ⟨hj, by simp [hspan], by simpa [hspan] using hmono, by simpa [hspan] using hle⟩

theorem EndCut.within {b : FinalBreak} {keep : Nat} {added : List Trivia} (hc : d.EndCut b keep added) (h : d.Proper)
    (id : String) : d.Within (d.endEdit id b.span keep added) d.endOfFile := by
  have hs := d.size_eq
  obtain ⟨n, -, -, hstart, -⟩ := hc.start
  have hend := d.span_start (j := d.endOfFile) (by omega)
  rw [h.span_endOfFile] at hend
  refine ⟨by omega, ?_, hc.start_le h, ?_⟩
  · exact hstart ▸ Nat.le_add_right _ _
  · exact hc.stop ▸ Nat.le_of_eq hend

/-- **Edits for different gaps do not exclude one another.** -/
theorem Within.conflictsWith {e f : Edit} {i j : Nat} (he : d.Within e i) (hf : d.Within f j) (h : d.Proper)
    (hij : i ≠ j) : e.conflictsWith f = false := by
  have hle := he.le
  have hle' := hf.le
  rcases Nat.lt_or_gt_of_ne hij with hlt | hlt
  · have hgap := h.gapStart_lt hlt hf.lt
    have hstop := he.stop
    have hstart := hf.start
    exact Edit.conflictsWith_eq_false_of_stop_le (by omega) (.inl (by omega))
  · have hgap := h.gapStart_lt hlt he.lt
    have hstop := hf.stop
    have hstart := he.start
    rw [Edit.conflictsWith_comm]
    exact Edit.conflictsWith_eq_false_of_stop_le (by omega) (.inl (by omega))

/-- Edits that take different pieces of a gap away do not exclude one another. -/
theorem Parsed.runEdit_conflictsWith_runEdit (h : d.Parsed) {j i i' : Nat} {t t' : Trivia}
    (ht : (d.gap j)[i]? = some t) (ht' : (d.gap j)[i']? = some t') (hne : i ≠ i') :
    (d.runEdit j i t).conflictsWith (d.runEdit j i' t') = false := by
  have hlt : ∀ {i i' : Nat} {t t' : Trivia}, (d.gap j)[i]? = some t → (d.gap j)[i']? = some t' → i < i' →
      (d.runEdit j i t).conflictsWith (d.runEdit j i' t') = false := by
    intro i i' t t' ht ht' hlt
    have hpos := listWidth_pos_of_getElem? h ht
    have hmono : Trivia.listWidth ((d.gap j).take (i + 1)) ≤ _ := listWidth_take_mono _ hlt
    have hspan := d.runEdit_span ht
    have hspan' := d.runEdit_span ht'
    refine Edit.conflictsWith_eq_false_of_stop_le ?_ (.inl ?_) <;> rw [hspan, hspan'] <;> dsimp only <;> omega
  rcases Nat.lt_or_gt_of_ne hne with hii | hii
  · exact hlt ht ht' hii
  · rw [Edit.conflictsWith_comm]
    exact hlt ht' ht hii

end Document

end LayoutLint
