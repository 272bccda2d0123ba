import LayoutLint.Proofs.Fix.Selection
/-!
# Greedy — a selection is taken in order

Edits are taken in the order of their regions, and of their rules where the regions are the same. None is lost
(`takeClear_perm`), and both parts keep the order (`sublist_takeClear`). An edit waits for one that was taken in front
of it (`exists_sublist_of_mem_takeClear`), so with any of the waiting ones the selection is no selection any more. What
was selected is never refused (`Document.applyEdits_ne_conflictingEdits`). `greedy_selectClear` says all of it of every
list.
-/
namespace LayoutLint

/-! ### The order of edits -/

theorem Edit.ruleLe_iff {e f : Edit} : e.ruleLe f = true ↔ e.span.start < f.span.start ∨
    (e.span.start = f.span.start ∧ (e.span.stop < f.span.stop ∨
      (e.span.stop = f.span.stop ∧ e.ruleId ≤ f.ruleId))) := by
  have hspan : e.span = f.span ↔ e.span.start = f.span.start ∧ e.span.stop = f.span.stop := by
    cases e.span
    cases f.span
    exact Iff.of_eq (Span.mk.injEq ..)
  rw [ruleLe]
  by_cases h : e.span = f.span
  · rw [if_pos h, decide_eq_true_eq, h]
    simp
  · rw [if_neg h, Span.le, Bool.or_eq_true, Bool.and_eq_true, decide_eq_true_eq, beq_iff_eq, decide_eq_true_eq]
    rw [hspan] at h
    constructor
    · rintro (hlt | ⟨heq, hle⟩)
      · exact .inl hlt
      · exact .inr ⟨heq, .inl (by omega)⟩
    · rintro (hlt | ⟨heq, hlt | ⟨heq', -⟩⟩)
      · exact .inl hlt
      · exact .inr ⟨heq, Nat.le_of_lt hlt⟩
      · exact absurd ⟨heq, heq'⟩ h

theorem Edit.ruleLe_trans {e f g : Edit} (hef : e.ruleLe f = true) (hfg : f.ruleLe g = true) : e.ruleLe g = true := by
  rw [ruleLe_iff] at hef hfg ⊢
  rcases hef with h | ⟨h, h' | ⟨h', hrule⟩⟩ <;> rcases hfg with k | ⟨k, k' | ⟨k', krule⟩⟩
  case inr.inr.inr.inr => exact .inr ⟨h.trans k, .inr ⟨h'.trans k', String.le_trans hrule krule⟩⟩
  all_goals omega

theorem Edit.ruleLe_total (e f : Edit) : (e.ruleLe f || f.ruleLe e) = true := by
  rw [Bool.or_eq_true, ruleLe_iff, ruleLe_iff]
  rcases Nat.lt_trichotomy e.span.start f.span.start with h | h | h
  · exact .inl (.inl h)
  · rcases Nat.lt_trichotomy e.span.stop f.span.stop with h' | h' | h'
    · exact .inl (.inr ⟨h, .inl h'⟩)
    · exact (String.le_total e.ruleId f.ruleId).imp (fun hr => .inr ⟨h, .inr ⟨h', hr⟩⟩)
        fun hr => .inr ⟨h.symm, .inr ⟨h'.symm, hr⟩⟩
    · exact .inr (.inr ⟨h.symm, .inl h'⟩)
  · exact .inr (.inl h)

theorem pairwise_mergeSort_ruleLe (edits : List Edit) :
    (edits.mergeSort Edit.ruleLe).Pairwise fun e f => e.ruleLe f = true := by
  refine List.pairwise_mergeSort (fun e f g hef hfg => ?_) (fun e f => ?_) edits
  · exact Edit.ruleLe_trans hef hfg
  · exact e.ruleLe_total f

/-! ### Taking in order -/

/-- **Both parts keep the order** of the edits. -/
theorem sublist_takeClear (taken edits : List Edit) :
    (takeClear taken edits).1.Sublist (taken.reverse ++ edits) ∧ (takeClear taken edits).2.Sublist edits := by
  induction edits generalizing taken with
  | nil =>
    rw [takeClear, List.append_nil]
    exact ⟨.refl _, .slnil⟩
  | cons e rest ih =>
    rw [takeClear]
    split
    · obtain ⟨hselected, hdeferred⟩ := ih taken
      exact ⟨hselected.trans (List.Sublist.append_left (List.sublist_cons_self e rest) _), hdeferred.cons_cons e⟩
    · obtain ⟨hselected, hdeferred⟩ := ih (e :: taken)
      rw [List.reverse_cons, List.append_assoc] at hselected
      exact ⟨hselected, hdeferred.cons e⟩

/-- **An edit waits for one in front of it.** -/
theorem exists_sublist_of_mem_takeClear (taken edits : List Edit) : ∀ f ∈ (takeClear taken edits).2,
    ∃ e ∈ (takeClear taken edits).1, e.conflictsWith f = true ∧ [e, f].Sublist (taken.reverse ++ edits) := by
  induction edits generalizing taken with
  | nil => exact fun f hf => absurd hf List.not_mem_nil
  | cons g rest ih =>
    rw [takeClear]
    split
    · rename_i hany
      intro f hf
      rcases List.mem_cons.1 hf with rfl | hf
      · obtain ⟨e, he, hc⟩ := List.any_eq_true.1 hany
        refine ⟨e, subset_takeClear taken rest e he, hc, ?_⟩
        exact (List.singleton_sublist.2 (List.mem_reverse.2 he)).append (List.singleton_sublist.2 List.mem_cons_self)
      · obtain ⟨e, he, hc, hsub⟩ := ih taken f hf
        exact ⟨e, he, hc, hsub.trans (List.Sublist.append_left (List.sublist_cons_self g rest) _)⟩
    · have ih := ih (g :: taken)
      rwa [List.reverse_cons, List.append_assoc] at ih

/-! ### What was selected is made -/

theorem Document.applySplices_ne_conflictingEdits (d : Document) (splices : List Splice) {r r' : String} {s s' : Span} :
    d.applySplices splices ≠ .error (.conflictingEdits r s r' s') := by
  rw [applySplices]
  cases d.splice splices <;> exact nofun

/-- **Edits that exclude one another in no pair are not refused.** -/
theorem Document.applyEdits_ne_conflictingEdits {edits : List Edit} (hclear : AllClear edits) (d : Document)
    {r r' : String} {s s' : Span} : d.applyEdits edits ≠ .error (.conflictingEdits r s r' s') := by
  have hkept : AllClear ((edits.filter (!·.isEmpty)).mergeSort Edit.le) :=
    AllClear.perm (List.Pairwise.filter _ hclear) (List.mergeSort_perm _ _).symm
  rw [applyEdits, hkept.firstConflict?]
  dsimp only
  split
  · intro h
    cases h
  · cases hmade : d.applySplices
      (((edits.filter (!·.isEmpty)).mergeSort Edit.le).reverse.flatMap (·.splices)) with
    | ok _ =>
      intro h
      cases h
    | error cause =>
      intro h
      obtain rfl := Except.error.inj h
      exact d.applySplices_ne_conflictingEdits _ hmade

/-! ### The whole selection -/

/-- A list of edits in two parts: a greedy selection in order, and those that wait. -/
structure Greedy (edits selected deferred : List Edit) : Prop where
  none_lost : (selected ++ deferred).Perm edits
  ordered : selected.Pairwise fun e f => e.ruleLe f = true
  deferred_ordered : deferred.Pairwise fun e f => e.ruleLe f = true
  clear : AllClear selected
  /-- An edit waits for a selected one in front of it: of edits with one region and one rule for one given before. -/
  waits : ∀ f ∈ deferred, ∃ e ∈ selected, e.conflictsWith f = true ∧ e.ruleLe f = true ∧
    [e, f].Sublist (edits.mergeSort Edit.ruleLe)
  maximal : ∀ f ∈ deferred, ¬ AllClear (f :: selected)
  progress : edits ≠ [] → selected ≠ []
  made : ∀ (d : Document) r s r' s', d.applyEdits selected ≠ .error (.conflictingEdits r s r' s')

/-- **The selection is greedy**: nothing is lost, something is selected when there is something to select, and no
document refuses what is selected. -/
theorem greedy_selectClear (edits : List Edit) : Greedy edits (selectClear edits).1 (selectClear edits).2 where
  none_lost := (takeClear_perm [] _).trans (List.mergeSort_perm edits Edit.ruleLe)
  ordered := (pairwise_mergeSort_ruleLe edits).sublist (sublist_takeClear [] _).1
  deferred_ordered := (pairwise_mergeSort_ruleLe edits).sublist (sublist_takeClear [] _).2
  clear := allClear_selectClear edits
  waits f hf := by
    obtain ⟨e, he, hc, hsub⟩ := exists_sublist_of_mem_takeClear [] _ f hf
    have hle := List.pairwise_pair.1 ((pairwise_mergeSort_ruleLe edits).sublist hsub)
    exact ⟨e, he, hc, hle, hsub⟩
  maximal f hf h := by
    obtain ⟨e, he, hc⟩ := exists_of_mem_deferred hf
    rw [Edit.conflictsWith_comm, (List.pairwise_cons.1 h).1 e he] at hc
    cases hc
  progress := selectClear_ne_nil
  made d _ _ _ _ := d.applyEdits_ne_conflictingEdits (allClear_selectClear edits)

end LayoutLint
