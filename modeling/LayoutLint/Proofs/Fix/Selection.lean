import LayoutLint.Batch
/-!
# Selection — which edits are made together

The edits that are selected exclude one another in no pair, so they can be made in one go (`applyEdits_eq`). An edit has
to wait only when a selected one excludes it (`exists_of_mem_deferred`).
-/
namespace LayoutLint

/-- No two edits exclude one another. -/
def AllClear (edits : List Edit) : Prop := edits.Pairwise fun e f => e.conflictsWith f = false

theorem Edit.conflictsWith_comm (e f : Edit) : e.conflictsWith f = f.conflictsWith e :=
  Span.conflictsWith_comm e.span f.span

theorem AllClear.perm {edits edits' : List Edit} (h : AllClear edits) (hp : edits.Perm edits') : AllClear edits' :=
  hp.pairwise h fun {e f} hef => by rw [Edit.conflictsWith_comm]; exact hef

theorem takeClear_perm (taken edits : List Edit) :
    ((takeClear taken edits).1 ++ (takeClear taken edits).2).Perm (taken ++ edits) := by
  induction edits generalizing taken with
  | nil =>
    rw [takeClear, List.append_nil, List.append_nil]
    exact List.reverse_perm taken
  | cons e rest ih =>
    rw [takeClear]
    split
    · exact List.perm_middle.trans ((ih taken).cons e |>.trans List.perm_middle.symm)
    · exact (ih (e :: taken)).trans List.perm_middle.symm

theorem subset_takeClear (taken edits : List Edit) : ∀ e ∈ taken, e ∈ (takeClear taken edits).1 := by
  induction edits generalizing taken with
  | nil => exact fun e he => List.mem_reverse.2 he
  | cons f rest ih =>
    rw [takeClear]
    split
    · exact ih taken
    · exact fun e he => ih (f :: taken) e (List.mem_cons_of_mem _ he)

theorem allClear_takeClear {taken : List Edit} (h : AllClear taken) (edits : List Edit) :
    AllClear (takeClear taken edits).1 := by
  induction edits generalizing taken with
  | nil => exact h.perm (List.reverse_perm taken).symm
  | cons e rest ih =>
    rw [takeClear]
    split
    · exact ih h
    · rename_i hany
      refine ih (List.pairwise_cons.2 ⟨fun f hf => ?_, h⟩)
      rw [Edit.conflictsWith_comm]
      exact Bool.eq_false_iff.2 fun hc => hany (List.any_eq_true.2 ⟨f, hf, hc⟩)

theorem exists_of_mem_takeClear (taken edits : List Edit) :
    ∀ f ∈ (takeClear taken edits).2, ∃ e ∈ (takeClear taken edits).1, e.conflictsWith f = true := by
  induction edits generalizing taken with
  | nil => exact fun f hf => absurd hf List.not_mem_nil
  | cons g rest ih =>
    rw [takeClear]
    split
    · rename_i hany
      intro f hf
      rcases List.mem_cons.1 hf with rfl | hf
      · obtain ⟨e, he, hc⟩ := List.any_eq_true.1 hany
        exact ⟨e, subset_takeClear taken rest e he, hc⟩
      · exact ih taken f hf
    · exact ih (g :: taken)

/-- **The edits of a selection can be made together.** -/
theorem allClear_selectClear (edits : List Edit) : AllClear (selectClear edits).1 := allClear_takeClear .nil _

theorem mem_selectClear (edits : List Edit) (e : Edit) :
    e ∈ edits ↔ e ∈ (selectClear edits).1 ∨ e ∈ (selectClear edits).2 := by
  have hp := (takeClear_perm [] (edits.mergeSort Edit.ruleLe)).trans (List.mergeSort_perm edits Edit.ruleLe)
  rw [← List.mem_append]
  exact hp.symm.mem_iff

/-- **An edit waits only for one that excludes it.** -/
theorem exists_of_mem_deferred {edits : List Edit} {f : Edit} (hf : f ∈ (selectClear edits).2) :
    ∃ e ∈ (selectClear edits).1, e.conflictsWith f = true :=
  exists_of_mem_takeClear _ _ f hf

/-- An edit is selected unless a selected one excludes it. -/
theorem mem_selected_of_clear {edits : List Edit} {f : Edit} (hf : f ∈ edits)
    (hclear : ∀ e ∈ (selectClear edits).1, e.conflictsWith f = false) : f ∈ (selectClear edits).1 := by
  refine ((mem_selectClear edits f).1 hf).resolve_right fun hd => ?_
  obtain ⟨e, he, hc⟩ := exists_of_mem_deferred hd
  rw [hclear e he] at hc
  cases hc

theorem selectClear_ne_nil {edits : List Edit} (h : edits ≠ []) : (selectClear edits).1 ≠ [] := by
  obtain ⟨e, he⟩ := List.exists_mem_of_ne_nil edits h
  intro hnil
  have := mem_selected_of_clear he (by rw [hnil]; exact fun _ h => absurd h List.not_mem_nil)
  rw [hnil] at this
  cases this

/-! ### Making edits together -/

theorem conflictIn?_eq_none {e : Edit} {edits : List Edit} (h : ∀ f ∈ edits, e.conflictsWith f = false) :
    e.conflictIn? edits = none := by
  induction edits with
  | nil => rfl
  | cons f rest ih =>
    rw [Edit.conflictIn?]
    split
    · rfl
    · rw [h f List.mem_cons_self, if_neg Bool.false_ne_true, ih fun g hg => h g (List.mem_cons_of_mem _ hg)]

theorem AllClear.firstConflict? {edits : List Edit} (h : AllClear edits) : firstConflict? edits = none := by
  induction edits with
  | nil => rfl
  | cons e rest ih =>
    obtain ⟨he, hrest⟩ := List.pairwise_cons.1 h
    rw [LayoutLint.firstConflict?, conflictIn?_eq_none he]
    exact ih hrest

/-- Edits in the order of their regions. -/
theorem pairwise_mergeSort_le (edits : List Edit) :
    (edits.mergeSort Edit.le).Pairwise fun e f => e.le f = true := by
  refine List.pairwise_mergeSort (fun e f g hef hfg => ?_) (fun e f => ?_) edits
  · simp only [Edit.le, Span.le, Bool.or_eq_true, Bool.and_eq_true, decide_eq_true_eq, beq_iff_eq] at hef hfg ⊢
    omega
  · simp only [Edit.le, Span.le, Bool.or_eq_true, Bool.and_eq_true, decide_eq_true_eq, beq_iff_eq]
    omega

/-- **Edits that exclude one another in no pair are made in one go**, as the splices of all of them. -/
theorem applyEdits_eq {d : Document} {edits : List Edit} (hclear : AllClear edits) (hne : edits ≠ [])
    (hsplices : ∀ e ∈ edits, e.splices ≠ []) :
    d.applyEdits edits = (d.applySplices ((edits.mergeSort Edit.le).reverse.flatMap (·.splices))).map
      fun document => { document, applied := edits.mergeSort Edit.le } := by
  have hfilter : edits.filter (!·.isEmpty) = edits := by
    rw [List.filter_eq_self]
    intro e he
    have := hsplices e he
    simpa [Edit.isEmpty] using this
  have hp := List.mergeSort_perm edits Edit.le
  rw [Document.applyEdits, hfilter]
  rw [(hclear.perm hp.symm).firstConflict?]
  rw [if_neg]
  rw [List.isEmpty_iff]
  intro hnil
  rw [hnil] at hp
  exact hne hp.symm.eq_nil

end LayoutLint
