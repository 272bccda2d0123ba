import LayoutLint.Proofs.Fix.Refusals
/-!
# Overlaps — regions that keep splices apart

Edits are kept apart by the bytes of their regions, splices by the pieces of trivia that they name. Where no piece is
empty the one follows from the other, as long as each splice names bytes of the region of its edit (`Confined`): splices
of two edits share no piece when the regions share no byte (`Confined.stop_le_or`). Only an insertion may meet another
splice at one piece, since regions that touch share its place; but for that, edits that do not exclude one another are
made (`Document.applyEdits_of_confined`).
-/
namespace LayoutLint

/-- Regions each of which starts in front of the end of the other exclude one another. -/
theorem Edit.conflictsWith_of_lt {e f : Edit} (hef : e.span.start < f.span.stop) (hfe : f.span.start < e.span.stop) :
    e.conflictsWith f = true := by
  unfold Edit.conflictsWith Span.conflictsWith Span.intersects Span.isEmpty
  cases hx : e.span.start == e.span.stop <;> cases hy : f.span.start == f.span.stop <;>
    simp only [beq_iff_eq, beq_eq_false_iff_ne] at hx hy <;>
    simp only [Bool.and_eq_true, decide_eq_true_eq, beq_iff_eq] <;> omega

namespace Document

variable {d : Document}

/-- No piece of trivia is empty. -/
def Solid (d : Document) : Prop := ∀ id < d.size, ∀ t ∈ (d.token id).leading ++ (d.token id).trailing, 0 < t.width

theorem Solid.pieceStart_lt (hd : d.Solid) {id : Nat} (hid : id < d.size) {slot : Slot} {m n : Nat} (h : m < n)
    (hn : n ≤ ((d.token id).trivia slot).length) : d.pieceStart id slot m < d.pieceStart id slot n := by
  have hm : m < ((d.token id).trivia slot).length := Nat.lt_of_lt_of_le h hn
  have hpos : 0 < (((d.token id).trivia slot)[m]).width := by
    refine hd id hid _ (List.mem_append.2 ?_)
    have hmem := List.getElem_mem hm
    cases slot
    · exact .inl hmem
    · exact .inr hmem
  have hsucc := Trivia.listWidth_take_succ (List.getElem?_eq_getElem hm)
  have hle := d.pieceStart_mono id slot (show m + 1 ≤ n from h)
  unfold pieceStart at hle ⊢
  omega

/-- Each splice of the edits names a run of the trivia of a token that is there, and bytes in the region of its edit.
The splices of one edit are on different lists. -/
structure Confined (d : Document) (edits : List Edit) : Prop where
  token : ∀ e ∈ edits, ∀ s ∈ e.splices, s.token < d.size ∧ (d.token s.token).missing = false
  range : ∀ e ∈ edits, ∀ s ∈ e.splices, s.start ≤ s.stop ∧ s.stop ≤ ((d.token s.token).trivia s.slot).length
  region : ∀ e ∈ edits, ∀ s ∈ e.splices, e.span.covers (d.spliceSpan s) = true
  lists : ∀ e ∈ edits, e.splices.Pairwise fun s t => s.token = t.token → s.slot ≠ t.slot

/-- Splices of the two edits that start at one piece each take some away. -/
def NoSharedInsertion (e f : Edit) : Prop :=
  ∀ s ∈ e.splices, ∀ t ∈ f.splices,
    s.token = t.token → s.slot = t.slot → s.start = t.start → s.start < s.stop ∧ t.start < t.stop

instance (d : Document) : Decidable d.Solid := by unfold Solid; infer_instance

instance (d : Document) (edits : List Edit) : Decidable (d.Confined edits) :=
  decidable_of_iff ((∀ e ∈ edits, ∀ s ∈ e.splices, s.token < d.size ∧ (d.token s.token).missing = false) ∧
    (∀ e ∈ edits, ∀ s ∈ e.splices, s.start ≤ s.stop ∧ s.stop ≤ ((d.token s.token).trivia s.slot).length) ∧
    (∀ e ∈ edits, ∀ s ∈ e.splices, e.span.covers (d.spliceSpan s) = true) ∧
    ∀ e ∈ edits, e.splices.Pairwise fun s t => s.token = t.token → s.slot ≠ t.slot)
    ⟨fun ⟨h₁, h₂, h₃, h₄⟩ => ⟨h₁, h₂, h₃, h₄⟩, fun h => ⟨h.token, h.range, h.region, h.lists⟩⟩

instance : DecidableRel NoSharedInsertion := fun e f => by unfold NoSharedInsertion; infer_instance

variable {edits : List Edit}

theorem Confined.of_subset (h : d.Confined edits) {edits' : List Edit} (hsub : edits' ⊆ edits) : d.Confined edits' :=
  ⟨fun e he => h.token e (hsub he), fun e he => h.range e (hsub he), fun e he => h.region e (hsub he),
    fun e he => h.lists e (hsub he)⟩

/-- **Splices in regions that do not exclude one another share no piece of a list.** -/
theorem Confined.stop_le_or (h : d.Confined edits) (hd : d.Solid) {e f : Edit} (he : e ∈ edits) (hf : f ∈ edits)
    (hclear : e.conflictsWith f = false) {s t : Splice} (hs : s ∈ e.splices) (ht : t ∈ f.splices)
    (htoken : s.token = t.token) (hslot : s.slot = t.slot) : s.stop ≤ t.start ∨ t.stop ≤ s.start := by
  by_contra hnot
  rw [not_or, Nat.not_le, Nat.not_le] at hnot
  have hes := h.region e he s hs
  have hft := h.region f hf t ht
  have hst := hd.pieceStart_lt (h.token e he s hs).1 hnot.1 (h.range e he s hs).2
  have hts := hd.pieceStart_lt (h.token f hf t ht).1 hnot.2 (h.range f hf t ht).2
  rw [Span.covers, Bool.and_eq_true, decide_eq_true_eq, decide_eq_true_eq, spliceSpan] at hes hft
  rw [htoken, hslot] at hes hst
  dsimp only at hes hft
  rw [Edit.conflictsWith_of_lt (by omega) (by omega)] at hclear
  cases hclear

/-- The splices for one list are apart. -/
theorem Confined.pairwise_apart (h : d.Confined edits) (hd : d.Solid) (hclear : AllClear edits)
    (hstart : edits.Pairwise NoSharedInsertion) (id : Nat) (slot : Slot) :
    (((edits.flatMap (·.splices)).filter (·.token == id)).filter (·.slot == slot)).Pairwise Splice.Apart := by
  have hall : (edits.flatMap (·.splices)).Pairwise fun s t => s.token = t.token → s.slot = t.slot → s.Apart t := by
    rw [List.pairwise_flatMap]
    refine ⟨fun e he => (h.lists e he).imp fun hne htoken hslot => absurd hslot (hne htoken), ?_⟩
    refine (hclear.and hstart).imp_of_mem fun {e f} he hf ⟨hclear, hstart⟩ s hs t ht htoken hslot => ?_
    have hor := h.stop_le_or hd he hf hclear hs ht htoken hslot
    refine ⟨fun heq => ?_, hor⟩
    have := hstart s hs t ht htoken hslot heq
    omega
  exact Splice.pairwise_of_slot hall id slot

/-- A token takes its splices. -/
theorem Confined.splice_token (h : d.Confined edits) (hd : d.Solid) (hclear : AllClear edits)
    (hstart : edits.Pairwise NoSharedInsertion) (id : Nat) :
    ∃ t, (d.token id).splice id ((edits.flatMap (·.splices)).filter (·.token == id)) = .ok t := by
  have hmem : ∀ s ∈ (edits.flatMap (·.splices)).filter (·.token == id), ∃ e ∈ edits, s ∈ e.splices ∧ s.token = id := by
    intro s hs
    obtain ⟨hs, hid⟩ := List.mem_filter.1 hs
    obtain ⟨e, he, hs⟩ := List.mem_flatMap.1 hs
    exact ⟨e, he, hs, beq_iff_eq.1 hid⟩
  refine Token.exists_splice (fun hne => ?_) (fun s hs => ?_) (h.pairwise_apart hd hclear hstart id)
  · obtain ⟨s, hs⟩ := List.exists_mem_of_ne_nil _ hne
    obtain ⟨e, he, hse, rfl⟩ := hmem s hs
    exact (h.token e he s hse).2
  · obtain ⟨e, he, hse, rfl⟩ := hmem s hs
    exact h.range e he s hse

/-- Edits without splices have no part in the splices. -/
theorem flatMap_splices_filter (edits : List Edit) :
    (edits.filter (!·.isEmpty)).flatMap (·.splices) = edits.flatMap (·.splices) := by
  induction edits with
  | nil => rfl
  | cons e edits ih =>
    rw [List.flatMap_cons, ← ih]
    cases he : e.isEmpty with
    | true =>
      rw [List.filter_cons_of_neg (by simp [he]), List.isEmpty_iff.1 he]
      rfl
    | false => rw [List.filter_cons_of_pos (by simp [he]), List.flatMap_cons]

/-- **Edits are made only where their splices are apart.** So two insertions at one piece are not made together. -/
theorem apart_of_applyEdits {o : FixOutcome} (h : d.applyEdits edits = .ok o) :
    (edits.flatMap (·.splices)).Pairwise fun s t => s.token = t.token → s.slot = t.slot → s.Apart t := by
  obtain ⟨happlied, hsplice⟩ := of_applyEdits h
  rw [← flatMap_splices_filter]
  refine apart_of_splice (splice_perm (List.Perm.flatMap_right _ ?_) hsplice)
  rw [happlied]
  exact (List.reverse_perm _).trans (List.mergeSort_perm _ _)

/-- **Edits in regions that do not exclude one another are made**, unless an insertion meets the splice of another edit
at one piece, or the outcome would be too large. -/
theorem applyEdits_of_confined (hd : d.Solid) (hclear : edits.Pairwise fun e f => e.conflictsWith f = false)
    (hin : d.Confined edits) (hstart : edits.Pairwise NoSharedInsertion)
    (hsize : d.lengthAfter (edits.flatMap (·.splices)) ≤ maxBytes) :
    ∃ o, d.applyEdits edits = .ok o ∧ o.document.length = d.lengthAfter (edits.flatMap (·.splices)) := by
  rw [← flatMap_splices_filter] at hsize ⊢
  have hsub : (edits.filter (!·.isEmpty)).Sublist edits := List.filter_sublist
  have hclear : AllClear (edits.filter (!·.isEmpty)) := List.Pairwise.sublist hsub hclear
  by_cases hnil : edits.filter (!·.isEmpty) = []
  · refine ⟨{ document := d, applied := [] }, ?_, ?_⟩
    · simp [applyEdits, hnil, firstConflict?]
    · simp [lengthAfter, hnil]
  · have hsort := List.mergeSort_perm (edits.filter (!·.isEmpty)) Edit.le
    have hperm := (List.reverse_perm _).trans hsort
    have hin' := hin.of_subset (List.Subset.trans hperm.subset hsub.subset)
    have hstart' : ((edits.filter (!·.isEmpty)).mergeSort Edit.le).reverse.Pairwise NoSharedInsertion := by
      refine hperm.symm.pairwise (List.Pairwise.sublist hsub hstart) fun {e f} h s hs t ht htoken hslot heq => ?_
      exact (h t ht s hs htoken.symm hslot.symm heq.symm).symm
    have htoken : ∀ s ∈ ((edits.filter (!·.isEmpty)).mergeSort Edit.le).reverse.flatMap (·.splices),
        s.token < d.size := by
      intro s hs
      obtain ⟨e, he, hs⟩ := List.mem_flatMap.1 hs
      exact (hin'.token e he s hs).1
    rw [← d.lengthAfter_perm (hperm.flatMap_right _)] at hsize ⊢
    obtain ⟨e, he, hlength⟩ := d.exists_splice htoken
      (fun id _ => hin'.splice_token hd (hclear.perm hperm.symm) hstart' id) hsize
    refine ⟨{ document := e, applied := (edits.filter (!·.isEmpty)).mergeSort Edit.le }, ?_, hlength⟩
    rw [applyEdits, (hclear.perm hsort.symm).firstConflict?]
    rw [if_neg, applySplices, he]
    · rfl
    · intro h
      exact hnil (hsort.symm.trans (.of_eq (List.isEmpty_iff.1 h))).eq_nil

/-- Regions that touch, each with an insertion at the place where they touch. -/
def touching : List Edit :=
  [⟨"one", ⟨0, 1⟩, [⟨0, .trailing, 0, 0, [.space]⟩]⟩, ⟨"two", ⟨1, 2⟩, [⟨0, .trailing, 0, 0, [.space]⟩]⟩]

/-- Two insertions at one piece are not made together, though the regions of their edits share no byte. -/
theorem not_applyEdits_touching : ∃ d, Document.ofSource "a b" = .ok d ∧ d.Solid ∧
    (touching.Pairwise fun e f => e.conflictsWith f = false) ∧ d.Confined touching ∧
    d.lengthAfter (touching.flatMap (·.splices)) ≤ maxBytes ∧ ¬ ∃ o, d.applyEdits touching = .ok o := by
  obtain ⟨d, hd, h⟩ := exists_ok_of_any (e := Document.ofSource "a b") (p := fun d =>
    decide d.Solid && (decide (d.Confined touching) &&
      decide (d.lengthAfter (touching.flatMap (·.splices)) ≤ maxBytes))) (by decide +kernel)
  simp only [Bool.and_eq_true, decide_eq_true_eq] at h
  refine ⟨d, hd, h.1, by decide, h.2.1, h.2.2, fun ⟨o, ho⟩ => ?_⟩
  exact ((List.pairwise_pair.1 (apart_of_applyEdits ho)) rfl rfl).1 rfl

/-- A piece of white space taken away and another one put in behind the next word. -/
theorem applyEdits_of_confined_words : ∃ d o, Document.ofSource "a b" = .ok d ∧
    d.applyEdits [⟨"one", ⟨1, 2⟩, [⟨0, .trailing, 0, 1, []⟩]⟩, ⟨"two", ⟨3, 3⟩, [⟨1, .trailing, 0, 0, [.space]⟩]⟩] =
      .ok o ∧ o.document.length = 3 := by
  obtain ⟨d, hd, h⟩ := exists_ok_of_any (e := Document.ofSource "a b") (p := fun d =>
    let edits : List Edit :=
      [⟨"one", ⟨1, 2⟩, [⟨0, .trailing, 0, 1, []⟩]⟩, ⟨"two", ⟨3, 3⟩, [⟨1, .trailing, 0, 0, [.space]⟩]⟩]
    decide d.Solid && (decide (d.Confined edits) && decide (d.lengthAfter (edits.flatMap (·.splices)) = 3)))
    (by decide +kernel)
  simp only [Bool.and_eq_true, decide_eq_true_eq] at h
  obtain ⟨o, ho, hlength⟩ := applyEdits_of_confined h.1 (by decide) h.2.1 (by decide) (by rw [h.2.2]; decide)
  exact ⟨d, o, hd, ho, hlength.trans h.2.2⟩

end Document

end LayoutLint
