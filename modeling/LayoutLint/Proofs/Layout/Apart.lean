import LayoutLint.Proofs.Layout.Lengths
import Mathlib.Data.List.Pairwise
/-!
# Apart — which splices can be made together

Splices of one list can be made together when each names a run of the list and every two are apart: they start at
different pieces, and one ends before the other starts (`Splice.applyAll_eq_ok_iff`). So the order in which they are
given does not matter. A document takes splices when each of its lists does and the outcome is not too large
(`Document.splice_eq_ok_iff`, `Document.exists_splice`); it may have missing tokens, which no splice can name.
-/
namespace LayoutLint

namespace Splice

/-- The splice names a run of the list. -/
def InBounds (ts : List Trivia) (s : Splice) : Prop := s.start ≤ s.stop ∧ s.stop ≤ ts.length

/-- The splices start at different pieces, and one of them ends before the other starts. -/
def Apart (s t : Splice) : Prop := s.start ≠ t.start ∧ (s.stop ≤ t.start ∨ t.stop ≤ s.start)

instance : Std.Symm Apart := ⟨fun _ _ h => ⟨h.1.symm, h.2.symm⟩⟩

instance (ts : List Trivia) (s : Splice) : Decidable (s.InBounds ts) := inferInstanceAs (Decidable (_ ∧ _))

instance (s t : Splice) : Decidable (s.Apart t) := inferInstanceAs (Decidable (_ ∧ _))

theorem laterFirst_iff {s t : Splice} :
    laterFirst s t = true ↔ t.start < s.start ∨ s.start = t.start ∧ t.stop ≤ s.stop := by
  rw [laterFirst, Bool.or_eq_true, Bool.and_eq_true, decide_eq_true_eq, beq_iff_eq, decide_eq_true_eq]

/-- Splices that are apart have one order only. -/
theorem eq_mergeSort_of_pairwise {ss ordered : List Splice} (h : ss.Pairwise Apart) (hp : ordered.Perm ss)
    (hle : ordered.Pairwise fun s t => laterFirst s t = true) : ordered = ss.mergeSort laterFirst := by
  refine List.Perm.eq_of_pairwise (fun s t hs ht hst hts => ?_) hle (pairwise_mergeSort ss)
    (hp.trans (List.mergeSort_perm ss laterFirst).symm)
  rw [laterFirst_iff] at hst hts
  by_contra hne
  exact (h.forall (hp.subset hs) ((List.mergeSort_perm ss laterFirst).subset ht) hne).1 (by omega)

/-- Splices in the order in which they are made are clear of one another when they are apart. -/
theorem allClear_iff_pairwise : ∀ {ss : List Splice}, (ss.Pairwise fun s t => laterFirst s t = true) →
    (∀ s ∈ ss, s.start ≤ s.stop) → (allClear ss = true ↔ ss.Pairwise Apart)
  | [], _, _ => iff_of_true rfl .nil
  | [s], _, _ => iff_of_true rfl (List.pairwise_singleton _ s)
  | s :: t :: ss, hle, hss => by
    obtain ⟨hs, hrest⟩ := List.pairwise_cons.1 hle
    have ih := allClear_iff_pairwise hrest fun u hu => hss u (List.mem_cons_of_mem _ hu)
    have hst := laterFirst_iff.1 (hs t List.mem_cons_self)
    have hbs := hss s List.mem_cons_self
    have hbt := hss t (List.mem_cons_of_mem _ List.mem_cons_self)
    rw [allClear, Bool.and_eq_true, ih, List.pairwise_cons (a := s), clearOf, Bool.and_eq_true, decide_eq_true_eq,
      bne_iff_ne]
    refine and_congr_left fun hpair => ⟨fun h u hu => ?_, fun h => ?_⟩
    · obtain ⟨hstop, hne⟩ := h
      rcases List.mem_cons.1 hu with rfl | hu
      · exact ⟨Ne.symm hne, .inr hstop⟩
      · -- A splice further on starts where `t` starts or before, and ends before `t` starts.
        have htu := laterFirst_iff.1 ((List.pairwise_cons.1 hrest).1 u hu)
        have hapart := (List.pairwise_cons.1 hpair).1 u hu
        have hbu := hss u (List.mem_cons_of_mem _ (List.mem_cons_of_mem _ hu))
        unfold Apart at hapart ⊢
        omega
    · have := h t List.mem_cons_self
      unfold Apart at this
      omega

/-- **Which splices of one list can be made together**, and what they make of it. -/
theorem applyAll_eq_ok_iff {id : Nat} {ts ts' : List Trivia} {ss : List Splice} : applyAll id ts ss = .ok ts' ↔
    (∀ s ∈ ss, s.InBounds ts) ∧ ss.Pairwise Apart ∧ ts' = (ss.mergeSort laterFirst).foldl apply ts := by
  have hperm : (ss.mergeSort laterFirst).Perm ss := List.mergeSort_perm ss laterFirst
  have hbounds : (ss.mergeSort laterFirst).find? (fun s => s.stop < s.start || ts.length < s.stop) = none ↔
      ∀ s ∈ ss, s.InBounds ts := by
    rw [List.find?_eq_none]
    simp only [Bool.or_eq_true, decide_eq_true_eq, not_or, Nat.not_lt, hperm.mem_iff, InBounds]
  have hapart : (ss.mergeSort laterFirst).Pairwise Apart ↔ ss.Pairwise Apart :=
    hperm.pairwise_iff symm
  rw [applyAll]
  split
  · rename_i s hs
    refine iff_of_false (fun h => by cases h) fun h => ?_
    rw [hbounds.2 h.1] at hs
    cases hs
  · rename_i hnone
    have hin := hbounds.1 hnone
    have hclear := allClear_iff_pairwise (pairwise_mergeSort ss) fun s hs => (hin s (hperm.subset hs)).1
    rw [← hapart, ← hclear]
    split
    · rename_i h
      exact ⟨fun heq => ⟨hin, h, (Except.ok.inj heq).symm⟩, fun heq => congrArg _ heq.2.2.symm⟩
    · rename_i h
      exact iff_of_false (fun h' => by cases h') fun h' => h h'.2.1

/-- **Splices of one list can be given in any order.** -/
theorem applyAll_perm {id : Nat} {ts ts' : List Trivia} {ss ss' : List Splice} (hp : ss.Perm ss')
    (h : applyAll id ts ss = .ok ts') : applyAll id ts ss' = .ok ts' := by
  obtain ⟨hin, hapart, rfl⟩ := applyAll_eq_ok_iff.1 h
  have hapart' : ss'.Pairwise Apart := hp.pairwise hapart symm
  refine applyAll_eq_ok_iff.2 ⟨fun s hs => hin s (hp.mem_iff.2 hs), hapart', ?_⟩
  rw [eq_mergeSort_of_pairwise hapart' ((List.mergeSort_perm ss laterFirst).trans hp) (pairwise_mergeSort ss)]

end Splice

/-- A token takes splices that its lists take. -/
theorem Token.exists_splice {id : Nat} {t : Token} {ss : List Splice} (hm : ss ≠ [] → t.missing = false)
    (hin : ∀ s ∈ ss, s.InBounds (t.trivia s.slot))
    (hapart : ∀ slot, (ss.filter (·.slot == slot)).Pairwise Splice.Apart) : ∃ t', t.splice id ss = .ok t' := by
  have hlist : ∀ slot, ∃ ts, Splice.applyAll id (t.trivia slot) (ss.filter (·.slot == slot)) = .ok ts := fun slot =>
    ⟨_, Splice.applyAll_eq_ok_iff.2 ⟨fun s hs => by
      obtain ⟨hs, hslot⟩ := List.mem_filter.1 hs
      rw [← beq_iff_eq.1 hslot]
      exact hin s hs, hapart slot, rfl⟩⟩
  obtain ⟨leading, hleading⟩ := hlist .leading
  obtain ⟨trailing, htrailing⟩ := hlist .trailing
  exact ⟨_, Token.splice_eq_ok_iff.2 ⟨hm, leading, trailing, hleading, htrailing, rfl⟩⟩

theorem Token.splice_perm {id : Nat} {t t' : Token} {ss ss' : List Splice} (hp : ss.Perm ss')
    (h : t.splice id ss = .ok t') : t.splice id ss' = .ok t' := by
  obtain ⟨hm, leading, trailing, hl, ht, rfl⟩ := Token.splice_eq_ok_iff.1 h
  exact Token.splice_eq_ok_iff.2 ⟨fun hne => hm fun hnil => hne (by rw [hnil] at hp; exact hp.symm.eq_nil), leading,
    trailing, Splice.applyAll_perm (hp.filter _) hl, Splice.applyAll_perm (hp.filter _) ht, rfl⟩

/-- The token with other trivia; a missing token has none and is as it was. -/
structure Token.Rewraps (t t' : Token) : Prop where
  kind : t'.kind = t.kind
  text : t'.text = t.text
  missing : t'.missing = t.missing
  bare : t.missing = true → t' = t

/-- A token with splices made has its word still. -/
theorem Token.rewraps_of_splice {id : Nat} {t t' : Token} {ss : List Splice} (h : t.splice id ss = .ok t') :
    t.Rewraps t' := by
  obtain ⟨hm, leading, trailing, -, -, rfl⟩ := Token.splice_eq_ok_iff.1 h
  refine ⟨rfl, rfl, rfl, fun hmiss => ?_⟩
  by_cases hnil : ss = []
  · subst hnil
    exact (Except.ok.inj h).symm
  · rw [hm hnil] at hmiss
    cases hmiss

/-- Tokens that make a document make one with other trivia, unless they are too large for it. -/
theorem checkTokensFrom_rewraps {ts ts' : List Token} (h : List.Forall₂ Token.Rewraps ts ts') :
    ∀ {index offset offset' : Nat}, checkTokensFrom index offset ts = .ok () →
      offset' + total (ts'.map Token.fullWidth) ≤ maxBytes → checkTokensFrom index offset' ts' = .ok () := by
  induction h with
  | nil => exact fun _ _ => rfl
  | @cons t t' ts ts' ht hts ih =>
    intro index offset offset' hok hsize
    rw [List.map_cons, total_cons, ← Nat.add_assoc] at hsize
    have hempty : ts'.isEmpty = ts.isEmpty := by cases hts <;> rfl
    rw [checkTokensFrom] at hok ⊢
    rw [hempty, show t'.isEndOfFile = t.isEndOfFile from congrArg (· == TokenKind.endOfFile) ht.kind]
    split at hok
    · cases hok
    · rename_i hplace
      rw [if_neg hplace]
      split at hok
      · cases hok
      · rename_i hbare
        rw [if_neg, if_neg (by omega)]
        · split at hok
          · cases hok
          · exact ih hok hsize
        · rw [ht.missing]
          cases hm : t.missing with
          | false => exact Bool.false_ne_true
          | true =>
            rw [hm] at hbare
            rwa [ht.bare hm]

namespace Document

variable {d e : Document}

/-- **Which splices a document takes, and what it is with them.** -/
theorem splice_eq_ok_iff {ss : List Splice} : d.splice ss = .ok e ↔ (∀ s ∈ ss, s.token < d.size) ∧ e.size = d.size ∧
    ∀ id < d.size, (d.token id).splice id (ss.filter (·.token == id)) = .ok (e.token id) := by
  have hknown : ss.find? (fun s => d.size ≤ s.token) = none ↔ ∀ s ∈ ss, s.token < d.size := by simp
  rw [← hknown, splice]
  cases ss.find? fun s => d.size ≤ s.token with
  | some s => exact iff_of_false (fun h => by cases h) fun h => by cases h.1
  | none =>
    show (List.mapM _ _ >>= _) = _ ↔ _
    rw [bind_eq_ok_iff, eq_self_iff_true, true_and]
    constructor
    · rintro ⟨l, hl, h⟩
      obtain ⟨hsize, hf⟩ := mapM_splice_eq_ok_iff.1 hl
      have htokens : e.tokens = l.toArray := by
        cases hdoc : ofTokens l.toArray with
        | error cause =>
          rw [hdoc] at h
          cases h
        | ok e' =>
          rw [hdoc] at h
          obtain rfl := Except.ok.inj h
          exact ofTokens_eq_ok_iff.1 hdoc
      have hsize' : e.size = l.length := congrArg Array.size htokens
      refine ⟨hsize'.trans hsize, fun id hid => ?_⟩
      rw [hf id (by omega), e.token_eq_getElem (by omega)]
      simp only [htokens, List.getElem_toArray]
    · rintro ⟨hsize, hf⟩
      refine ⟨e.tokens.toList, mapM_splice_eq_ok_iff.2 ⟨hsize, fun id hid => ?_⟩, ?_⟩
      · rw [hf id (hsize ▸ hid), e.token_eq_getElem hid, Array.getElem_toList]
      · rw [Array.toArray_toList, ofTokens_eq_ok_iff.2 rfl]
        rfl

/-- **Splices can be given to a document in any order.** -/
theorem splice_perm {ss ss' : List Splice} (hp : ss.Perm ss') (h : d.splice ss = .ok e) : d.splice ss' = .ok e := by
  obtain ⟨hss, hsize, hf⟩ := splice_eq_ok_iff.1 h
  exact splice_eq_ok_iff.2 ⟨fun s hs => hss s (hp.mem_iff.2 hs), hsize,
    fun id hid => Token.splice_perm (hp.filter _) (hf id hid)⟩

/-- A document is as it was when no splices are made. -/
theorem splice_nil (d : Document) : d.splice [] = .ok d :=
  splice_eq_ok_iff.2 ⟨fun _ hs => absurd hs List.not_mem_nil, rfl, fun _ _ => rfl⟩

/-- **Splices that a document takes are apart.** -/
theorem apart_of_splice {ss : List Splice} (h : d.splice ss = .ok e) :
    ss.Pairwise fun s t => s.token = t.token → s.slot = t.slot → s.Apart t := by
  obtain ⟨hss, -, hf⟩ := splice_eq_ok_iff.1 h
  rw [List.pairwise_iff_forall_sublist]
  intro s t hst htoken hslot
  have hs := hss s (hst.subset List.mem_cons_self)
  obtain ⟨-, leading, trailing, hl, ht, -⟩ := Token.splice_eq_ok_iff.1 (hf s.token hs)
  have hpair : ((ss.filter (·.token == s.token)).filter (·.slot == s.slot)).Pairwise Splice.Apart := by
    cases s.slot
    · exact (Splice.applyAll_eq_ok_iff.1 hl).2.1
    · exact (Splice.applyAll_eq_ok_iff.1 ht).2.1
  rw [List.pairwise_filter, List.pairwise_filter, List.pairwise_iff_forall_sublist] at hpair
  exact hpair hst (beq_self_eq_true _) (beq_iff_eq.2 htoken.symm) (beq_self_eq_true _) (beq_iff_eq.2 hslot.symm)

/-- **A document takes splices that its tokens take**, unless the outcome would be too large. -/
theorem exists_splice {ss : List Splice} (hss : ∀ s ∈ ss, s.token < d.size)
    (hf : ∀ id < d.size, ∃ t, (d.token id).splice id (ss.filter (·.token == id)) = .ok t)
    (hsize : d.lengthAfter ss ≤ maxBytes) : ∃ e, d.splice ss = .ok e ∧ e.length = d.lengthAfter ss := by
  have hall : ∀ id : Nat, ∃ t, id < d.size → (d.token id).splice id (ss.filter (·.token == id)) = .ok t := fun id =>
    (Nat.lt_or_ge id d.size).elim (fun h => (hf id h).imp fun _ ht _ => ht)
      fun h => ⟨default, fun h' => absurd h' (Nat.not_lt.2 h)⟩
  obtain ⟨f, hf⟩ := Classical.axiomOfChoice hall
  have htotal := total_splice hss hf
  have hrewraps : List.Forall₂ Token.Rewraps d.tokens.toList ((List.range d.size).map f) := by
    refine List.forall₂_iff_get.2 ⟨by simp [size], fun i h₁ h₂ => ?_⟩
    rw [List.get_eq_getElem, List.get_eq_getElem, List.getElem_map, List.getElem_range, Array.getElem_toList,
      ← d.token_eq_getElem h₁]
    exact Token.rewraps_of_splice (hf i h₁)
  have hcheck : checkTokens ((List.range d.size).map f) = .ok () := by
    have haccepted := d.accepted
    have hlast : ((List.range d.size).map f).getLast? = some (f d.endOfFile) := by
      rw [d.size_eq, List.range_succ, List.map_append, List.map_singleton, List.getLast?_concat]
    have hlast' : d.tokens.toList.getLast? = some (d.token d.endOfFile) := by
      have hlt : d.endOfFile < d.size := by
        rw [d.size_eq]
        exact Nat.lt_succ_self _
      rw [List.getLast?_eq_getElem?, d.token_eq_getElem hlt]
      exact Array.getElem?_toList.trans (Array.getElem?_eq_getElem hlt)
    rw [checkTokens, hlast'] at haccepted
    rw [checkTokens, hlast]
    dsimp only at haccepted ⊢
    rw [Token.isEndOfFile, (Token.rewraps_of_splice (hf d.endOfFile (by have := d.size_eq; omega))).kind]
    split at haccepted
    · rename_i heof
      rw [Token.isEndOfFile] at heof
      rw [if_pos heof]
      exact checkTokensFrom_rewraps hrewraps haccepted (by rw [Nat.zero_add, htotal]; exact hsize)
    · cases haccepted
  cases hdoc : ofTokens ((List.range d.size).map f).toArray with
  | error cause =>
    rw [ofTokens_eq_error_iff, hcheck] at hdoc
    cases hdoc
  | ok e =>
    refine ⟨e, by rw [d.splice_eq hss hf, hdoc], ?_⟩
    rw [length, e.text_eq, utf8ByteSize_textOf, ofTokens_eq_ok_iff.1 hdoc, htotal]

/-- **A document takes splices that are apart**, each of a run of the trivia of a token that is not missing. -/
theorem exists_splice_of_apart {ss : List Splice} (hss : ∀ s ∈ ss, s.token < d.size ∧
      (d.token s.token).missing = false ∧ s.InBounds ((d.token s.token).trivia s.slot))
    (hapart : ss.Pairwise fun s t => s.token = t.token → s.slot = t.slot → s.Apart t)
    (hsize : d.lengthAfter ss ≤ maxBytes) : ∃ e, d.splice ss = .ok e ∧ e.length = d.lengthAfter ss := by
  refine exists_splice (fun s hs => (hss s hs).1) (fun id _ => Token.exists_splice (fun hne => ?_) (fun s hs => ?_)
    fun slot => ?_) hsize
  · obtain ⟨s, hs⟩ := List.exists_mem_of_ne_nil _ hne
    obtain ⟨hs, hid⟩ := List.mem_filter.1 hs
    exact beq_iff_eq.1 hid ▸ (hss s hs).2.1
  · obtain ⟨hs, hid⟩ := List.mem_filter.1 hs
    exact beq_iff_eq.1 hid ▸ (hss s hs).2.2
  · rw [List.pairwise_filter, List.pairwise_filter]
    refine hapart.imp fun {s t} hst hs ht hs' ht' => hst ?_ ?_
    · rw [beq_iff_eq.1 hs, beq_iff_eq.1 ht]
    · rw [beq_iff_eq.1 hs', beq_iff_eq.1 ht']

end Document

end LayoutLint
