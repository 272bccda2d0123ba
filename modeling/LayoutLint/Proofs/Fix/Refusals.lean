import LayoutLint.Proofs.Fix.Conflicts
import LayoutLint.Proofs.Layout.Apart
/-!
# Refusals — which lists of edits are refused

Edits are looked through in the order of their regions, and each is compared with those behind it only as far as it
reaches. What starts further on starts behind its end, so no two edits that exclude one another are passed over
(`firstConflict?_eq_none_iff`). Edits none of which excludes another are in one order only
(`AllClear.eq_mergeSort`), so it does not matter in which order they are given (`Document.applyEdits_refuses_iff`).
-/
namespace LayoutLint

/-- The region of the edit ends where it starts or behind. -/
def Edit.Ordered (e : Edit) : Prop := e.span.start ≤ e.span.stop

theorem Edit.le_iff {e f : Edit} : e.le f = true ↔
    e.span.start < f.span.start ∨ e.span.start = f.span.start ∧ e.span.stop ≤ f.span.stop := by
  rw [Edit.le, Span.le, Bool.or_eq_true, Bool.and_eq_true, decide_eq_true_eq, beq_iff_eq, decide_eq_true_eq]

/-- **Looking no further than an edit reaches passes over no edit that it excludes.** -/
theorem conflictIn?_eq_none_iff {e : Edit} (he : e.Ordered) : ∀ {edits : List Edit},
    (edits.Pairwise fun f g => f.le g = true) →
      (e.conflictIn? edits = none ↔ ∀ f ∈ edits, e.conflictsWith f = false)
  | [], _ => iff_of_true rfl fun _ hf => absurd hf List.not_mem_nil
  | f :: rest, hle => by
    obtain ⟨hf, hrest⟩ := List.pairwise_cons.1 hle
    rw [Edit.conflictIn?, List.forall_mem_cons]
    split
    · rename_i hbehind
      -- The rest starts where `f` starts or behind, and that is behind the end of `e`.
      have hclear : ∀ g : Edit, f.span.start ≤ g.span.start → e.conflictsWith g = false := fun g hg =>
        Edit.conflictsWith_eq_false_of_stop_le (by omega) (.inl (by unfold Edit.Ordered at he; omega))
      refine iff_of_true rfl ⟨hclear f (Nat.le_refl _), fun g hg => hclear g ?_⟩
      have := Edit.le_iff.1 (hf g hg)
      omega
    · split
      · rename_i hc
        refine iff_of_false (fun h => by cases h) fun h => ?_
        rw [hc] at h
        cases h.1
      · rename_i hc
        rw [conflictIn?_eq_none_iff he hrest]
        exact ⟨fun h => ⟨Bool.eq_false_iff.2 hc, h⟩, And.right⟩

/-- **Of edits in order a pair is refused unless no two exclude one another.** -/
theorem firstConflict?_eq_none_iff : ∀ {edits : List Edit}, (∀ e ∈ edits, e.Ordered) →
    (edits.Pairwise fun e f => e.le f = true) → (firstConflict? edits = none ↔ AllClear edits)
  | [], _, _ => iff_of_true rfl .nil
  | e :: rest, hspan, hle => by
    obtain ⟨-, hrest⟩ := List.pairwise_cons.1 hle
    have he := conflictIn?_eq_none_iff (hspan e List.mem_cons_self) hrest
    have ih := firstConflict?_eq_none_iff (fun f hf => hspan f (List.mem_cons_of_mem _ hf)) hrest
    rw [firstConflict?, AllClear, List.pairwise_cons, ← he]
    split
    · rename_i f hf
      refine iff_of_false (fun h => by cases h) fun h => ?_
      rw [h.1] at hf
      cases hf
    · rename_i hnone
      rw [ih]
      exact ⟨fun h => ⟨hnone, h⟩, And.right⟩

/-- **Edits none of which excludes another are in order in one way only.** -/
theorem AllClear.eq_mergeSort {edits ordered : List Edit} (h : AllClear edits) (hspan : ∀ e ∈ edits, e.Ordered)
    (hp : ordered.Perm edits) (hle : ordered.Pairwise fun e f => e.le f = true) :
    ordered = edits.mergeSort Edit.le := by
  have hsort := List.mergeSort_perm edits Edit.le
  refine List.Perm.eq_of_pairwise (fun e f he hf hef hfe => ?_) hle (pairwise_mergeSort_le edits) (hp.trans hsort.symm)
  rw [Edit.le_iff] at hef hfe
  have hspan' : e.span = f.span := by
    cases hs : e.span
    cases ht : f.span
    rw [hs, ht] at hef hfe
    dsimp only at hef hfe
    rw [Span.mk.injEq]
    omega
  exact h.eq_of_conflictsWith (hp.subset he) (hsort.subset hf)
    (Edit.conflictsWith_of_span_eq hspan' (hspan e (hp.subset he)))

/-- Two entries of a list exclude one another unless no two do. -/
theorem not_allClear_iff {edits : List Edit} : ¬ AllClear edits ↔
    ∃ (i j : Nat) (e f : Edit), i ≠ j ∧ edits[i]? = some e ∧ edits[j]? = some f ∧ e.conflictsWith f = true := by
  constructor
  · intro h
    rw [AllClear, List.pairwise_iff_getElem] at h
    simp only [Classical.not_forall, Bool.not_eq_false] at h
    obtain ⟨i, j, hi, hj, hij, hc⟩ := h
    exact ⟨i, j, _, _, Nat.ne_of_lt hij, List.getElem?_eq_getElem hi, List.getElem?_eq_getElem hj, hc⟩
  · rintro ⟨i, j, e, f, hij, hi, hj, hc⟩ h
    obtain ⟨hi', rfl⟩ := List.getElem?_eq_some_iff.1 hi
    obtain ⟨hj', rfl⟩ := List.getElem?_eq_some_iff.1 hj
    rw [AllClear, List.pairwise_iff_getElem] at h
    rcases Nat.lt_or_gt_of_ne hij with hlt | hlt
    · rw [h i j hi' hj' hlt] at hc
      cases hc
    · rw [Edit.conflictsWith_comm, h j i hj' hi' hlt] at hc
      cases hc

namespace Document

variable {d : Document} {edits : List Edit}

/-- Edits are not refused when none of those that change something excludes another. -/
theorem applyEdits_eq_error_iff (d : Document) (hspan : ∀ e ∈ edits.filter (!·.isEmpty), e.Ordered) :
    (∃ r s r' s', d.applyEdits edits = .error (.conflictingEdits r s r' s')) ↔
      ¬ AllClear (edits.filter (!·.isEmpty)) := by
  have hp := List.mergeSort_perm (edits.filter (!·.isEmpty)) Edit.le
  have hnone := firstConflict?_eq_none_iff (fun e he => hspan e (hp.subset he))
    (pairwise_mergeSort_le (edits.filter (!·.isEmpty)))
  have hclear : AllClear ((edits.filter (!·.isEmpty)).mergeSort Edit.le) ↔ AllClear (edits.filter (!·.isEmpty)) :=
    ⟨fun h => h.perm hp, fun h => h.perm hp.symm⟩
  rw [← hclear, ← hnone, applyEdits]
  cases firstConflict? ((edits.filter (!·.isEmpty)).mergeSort Edit.le) with
  | some pair => exact iff_of_true ⟨_, _, _, _, rfl⟩ (Option.some_ne_none pair)
  | none =>
    refine iff_of_false ?_ fun h => h rfl
    rintro ⟨r, s, r', s', h⟩
    dsimp only at h
    split at h
    · cases h
    · rw [applySplices] at h
      cases hs : d.splice (((edits.filter (!·.isEmpty)).mergeSort Edit.le).reverse.flatMap (·.splices)) <;>
        rw [hs] at h <;> cases h

/-- Edits that are made are listed in the order of their regions, and their splices are made at once. -/
theorem of_applyEdits {o : FixOutcome} (h : d.applyEdits edits = .ok o) :
    o.applied = (edits.filter (!·.isEmpty)).mergeSort Edit.le ∧
      d.splice (o.applied.reverse.flatMap (·.splices)) = .ok o.document := by
  rw [applyEdits] at h
  split at h
  · cases h
  · split at h
    · rename_i hnil
      obtain rfl := Except.ok.inj h
      exact ⟨(List.isEmpty_iff.1 hnil).symm, d.splice_nil⟩
    · rw [applySplices] at h
      cases hs : d.splice (((edits.filter (!·.isEmpty)).mergeSort Edit.le).reverse.flatMap (·.splices)) <;>
        rw [hs] at h
      · cases h
      · obtain rfl := Except.ok.inj h
        exact ⟨rfl, hs⟩

/-- What is made of edits none of which excludes another does not depend on their order. -/
theorem applyEdits_perm (d : Document) {edits' : List Edit} (hspan : ∀ e ∈ edits.filter (!·.isEmpty), e.Ordered)
    (hclear : AllClear (edits.filter (!·.isEmpty))) (hp : edits.Perm edits') :
    d.applyEdits edits = d.applyEdits edits' := by
  have hp := hp.filter (!·.isEmpty)
  have hsort := List.mergeSort_perm (edits.filter (!·.isEmpty)) Edit.le
  rw [applyEdits, applyEdits, (hclear.perm hp).eq_mergeSort (fun e he => hspan e (hp.symm.subset he)) (hsort.trans hp)
    (pairwise_mergeSort_le _)]

/-- **Edits are refused when two of them exclude one another, and only then**; they are made in the order of their
regions, whatever the order in which they are given. Edits without splices do not count. -/
theorem applyEdits_refuses_iff (d : Document) (hspan : ∀ e ∈ edits, e.span.start ≤ e.span.stop) :
    ((∃ r s r' s', d.applyEdits edits = .error (.conflictingEdits r s r' s')) ↔
      ∃ (i j : Nat) (e f : Edit), i ≠ j ∧ (edits.filter (!·.isEmpty))[i]? = some e ∧
        (edits.filter (!·.isEmpty))[j]? = some f ∧ e.conflictsWith f = true) ∧
    (∀ o, d.applyEdits edits = .ok o →
      o.applied.Perm (edits.filter (!·.isEmpty)) ∧ o.applied.Pairwise fun e f => e.le f = true) ∧
    ∀ edits', edits.Perm edits' → ∀ o, d.applyEdits edits = .ok o ↔ d.applyEdits edits' = .ok o := by
  have hspan : ∀ {edits' : List Edit}, edits.Perm edits' → ∀ e ∈ edits'.filter (!·.isEmpty), e.Ordered :=
    fun hp e he => hspan e (hp.symm.subset (List.mem_of_mem_filter he))
  -- What is not refused is clear.
  have hclear : ∀ {edits' : List Edit}, edits.Perm edits' → ∀ {o}, d.applyEdits edits' = .ok o →
      AllClear (edits'.filter (!·.isEmpty)) := by
    intro edits' hp o ho
    by_contra hnot
    obtain ⟨r, s, r', s', h⟩ := (d.applyEdits_eq_error_iff (hspan hp)).2 hnot
    rw [ho] at h
    cases h
  refine ⟨(d.applyEdits_eq_error_iff (hspan (.refl _))).trans not_allClear_iff, fun o ho => ?_, fun edits' hp o => ?_⟩
  · rw [(of_applyEdits ho).1]
    exact ⟨List.mergeSort_perm _ _, pairwise_mergeSort_le _⟩
  · constructor <;> intro ho
    · rwa [← d.applyEdits_perm (hspan (.refl _)) (hclear (.refl _) ho) hp]
    · rwa [d.applyEdits_perm (hspan hp) (hclear hp ho) hp.symm] at ho

/-- An insertion inside of the region of another edit, given in front of it. -/
theorem applyEdits_refuses_iff_inside : ∃ r s r' s', blank.applyEdits
    [⟨"inner", ⟨2, 2⟩, [⟨0, .leading, 0, 0, [.space]⟩]⟩, ⟨"outer", ⟨0, 4⟩, [⟨0, .leading, 0, 0, []⟩]⟩] =
      .error (.conflictingEdits r s r' s') :=
  (blank.applyEdits_refuses_iff (by decide)).1.2 ⟨0, 1, _, _, by decide, rfl, rfl, by decide⟩

end Document

end LayoutLint
