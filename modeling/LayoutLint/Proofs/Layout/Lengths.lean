import LayoutLint.Batch
import LayoutLint.Proofs.Layout.Places
import LayoutLint.Proofs.Layout.Splices
/-!
# Lengths — how long a text is after splices

Splices that can be made take away what they name and put in what they carry, and keep every other byte
(`Splice.listWidth_applyAll`, `Token.fullWidth_splice`). So the length of the outcome is known before they are made
(`lengthAfter`, `Document.total_splice`).
-/
namespace LayoutLint

open Trivia (listWidth listWidth_append)

/-- Sums do not depend on the order. -/
theorem total_perm {l m : List Nat} (h : l.Perm m) : total l = total m := by
  induction h with
  | nil => rfl
  | cons n _ ih => rw [total_cons, total_cons, ih]
  | swap m n l => rw [total_cons, total_cons, total_cons, total_cons, Nat.add_left_comm]
  | trans _ _ ih ih' => rw [ih, ih']

/-- A sum over two classes. -/
theorem total_filter_add {α : Type} (g : α → Nat) {p q r : α → Bool} {l : List α}
    (hr : ∀ a ∈ l, (r a = true ↔ p a = true ∨ q a = true) ∧ ¬ (p a = true ∧ q a = true)) :
    total ((l.filter r).map g) = total ((l.filter p).map g) + total ((l.filter q).map g) := by
  induction l with
  | nil => rfl
  | cons a l ih =>
    have ih := ih fun b hb => hr b (List.mem_cons_of_mem _ hb)
    obtain ⟨hiff, hnot⟩ := hr a List.mem_cons_self
    rw [List.filter_cons, List.filter_cons, List.filter_cons]
    cases hp : p a <;> cases hq : q a <;> simp only [hp, hq] at hiff hnot
    · rw [if_neg (by simp [hiff]), if_neg Bool.false_ne_true, if_neg Bool.false_ne_true, ih]
    · rw [if_pos (by simp [hiff]), if_neg Bool.false_ne_true, if_pos rfl, List.map_cons, List.map_cons, total_cons,
        total_cons, ih, Nat.add_left_comm]
    · rw [if_pos (by simp [hiff]), if_pos rfl, if_neg Bool.false_ne_true, List.map_cons, List.map_cons, total_cons,
        total_cons, ih, Nat.add_assoc]
    · exact absurd ⟨trivial, trivial⟩ hnot

namespace Splice

/-- What the splice takes out of a list. -/
def cutFrom (ts : List Trivia) (s : Splice) : List Trivia := (ts.take s.stop).drop s.start

theorem cutFrom_take {ts : List Trivia} {s : Splice} {n : Nat} (h : s.stop ≤ n) :
    cutFrom (ts.take n) s = cutFrom ts s := by
  rw [cutFrom, cutFrom, List.take_take, Nat.min_eq_left h]

theorem listWidth_cutFrom (ts : List Trivia) {s : Splice} (h : s.start ≤ s.stop) :
    listWidth (ts.take s.start) + listWidth (cutFrom ts s) + listWidth (ts.drop s.stop) = listWidth ts := by
  have htake : ts.take s.start = (ts.take s.stop).take s.start := by rw [List.take_take, Nat.min_eq_left h]
  rw [cutFrom, htake, ← listWidth_append, List.take_append_drop, ← listWidth_append, List.take_append_drop]

/-- Splices that follow one another from the end of a list to its start. -/
theorem listWidth_foldl_apply {ss : List Splice} {ts : List Trivia} (hclear : ss.Pairwise fun s t => t.stop ≤ s.start)
    (hss : ∀ s ∈ ss, s.start ≤ s.stop ∧ s.stop ≤ ts.length) :
    listWidth (ss.foldl apply ts) + total (ss.map fun s => listWidth (cutFrom ts s)) =
      listWidth ts + total (ss.map fun s => listWidth s.replacement) := by
  induction ss generalizing ts with
  | nil => rfl
  | cons s ss ih =>
    obtain ⟨hs, hrest⟩ := List.pairwise_cons.1 hclear
    have hb := hss s List.mem_cons_self
    have hbounds : ∀ t ∈ ss, t.start ≤ t.stop ∧ t.stop ≤ (ts.take s.start).length := by
      intro t ht
      have := hs t ht
      refine ⟨(hss t (List.mem_cons_of_mem _ ht)).1, ?_⟩
      rw [List.length_take]
      omega
    have hcut : ss.map (fun t => listWidth (cutFrom (ts.take s.start) t)) = ss.map fun t => listWidth (cutFrom ts t) :=
      List.map_congr_left fun t ht => by rw [cutFrom_take (hs t ht)]
    have ih := ih hrest hbounds
    rw [hcut] at ih
    have hwidth := listWidth_cutFrom ts hb.1
    rw [foldl_apply_cons hclear (fun t ht => (hbounds t ht).1) (by omega), listWidth_append, listWidth_append,
      List.map_cons, List.map_cons, total_cons, total_cons]
    omega

/-- Splices each of which is clear of the next are clear of all that follow. -/
theorem pairwise_of_allClear : ∀ {ss : List Splice}, (∀ s ∈ ss, s.start ≤ s.stop) → allClear ss = true →
    ss.Pairwise fun s t => t.stop ≤ s.start
  | [], _, _ => .nil
  | [_], _, _ => List.pairwise_singleton _ _
  | s :: t :: ss, hss, h => by
    rw [allClear, Bool.and_eq_true, clearOf, Bool.and_eq_true, decide_eq_true_eq] at h
    have hrest := pairwise_of_allClear (fun u hu => hss u (List.mem_cons_of_mem _ hu)) h.2
    refine List.pairwise_cons.2 ⟨fun u hu => ?_, hrest⟩
    rcases List.mem_cons.1 hu with rfl | hu
    · exact h.1.1
    · have := (List.pairwise_cons.1 hrest).1 u hu
      have := hss t (List.mem_cons_of_mem _ List.mem_cons_self)
      omega

/-- **What splices make of the length of a list.** -/
theorem listWidth_applyAll {id : Nat} {ts ts' : List Trivia} {ss : List Splice} (h : applyAll id ts ss = .ok ts') :
    listWidth ts' + total (ss.map fun s => listWidth (cutFrom ts s)) =
      listWidth ts + total (ss.map fun s => listWidth s.replacement) := by
  have hperm : (ss.mergeSort laterFirst).Perm ss := List.mergeSort_perm ss laterFirst
  rw [applyAll] at h
  split at h
  · cases h
  · rename_i hnone
    split at h
    · rename_i hclear
      obtain rfl := Except.ok.inj h
      have hbounds : ∀ s ∈ ss.mergeSort laterFirst, s.start ≤ s.stop ∧ s.stop ≤ ts.length := by
        intro s hs
        have := List.find?_eq_none.1 hnone s hs
        simp only [Bool.or_eq_true, decide_eq_true_eq, not_or, Nat.not_lt] at this
        exact this
      have key := listWidth_foldl_apply (pairwise_of_allClear (fun s hs => (hbounds s hs).1) hclear) hbounds
      rwa [total_perm (hperm.map _), total_perm (hperm.map _)] at key
    · cases h

theorem total_replacement {ss : List Splice} (h : ∀ s ∈ ss, s.replacement = []) :
    total (ss.map fun s => listWidth s.replacement) = 0 := by
  induction ss with
  | nil => rfl
  | cons s ss ih =>
    rw [List.map_cons, total_cons, h s List.mem_cons_self, ih fun t ht => h t (List.mem_cons_of_mem _ ht)]
    rfl

end Splice

/-- **What splices make of the length of a token.** -/
theorem Token.fullWidth_splice {id : Nat} {t t' : Token} {ss : List Splice} (h : t.splice id ss = .ok t') :
    t'.fullWidth + total (ss.map fun s => listWidth (s.cutFrom (t.trivia s.slot))) =
      t.fullWidth + total (ss.map fun s => listWidth s.replacement) := by
  obtain ⟨-, leading, trailing, hl, ht, rfl⟩ := Token.splice_eq_ok_iff.1 h
  have hslots : ∀ g : Splice → Nat, total (ss.map g) =
      total ((ss.filter (·.slot == .leading)).map g) + total ((ss.filter (·.slot == .trailing)).map g) := by
    intro g
    have hall : ss.filter (fun _ => true) = ss := List.filter_eq_self.2 fun _ _ => rfl
    conv => lhs; rw [← hall]
    refine total_filter_add g fun s _ => ?_
    cases s.slot <;> simp
  have hcut : ∀ slot, (ss.filter (·.slot == slot)).map (fun s => listWidth (s.cutFrom (t.trivia s.slot))) =
      (ss.filter (·.slot == slot)).map fun s => listWidth (s.cutFrom (t.trivia slot)) := by
    intro slot
    refine List.map_congr_left fun s hs => ?_
    rw [eq_of_beq (List.mem_filter.1 hs).2]
  have hleading := Splice.listWidth_applyAll hl
  have htrailing := Splice.listWidth_applyAll ht
  rw [hslots, hslots, hcut, hcut]
  simp only [Token.fullWidth, Token.leadingWidth, Token.trailingWidth, Token.textWidth, Token.trivia]
  omega

/-- Sums over splices, token by token. -/
theorem total_splices (g : Splice → Nat) (ss : List Splice) (n : Nat) :
    total ((List.range n).map fun id => total ((ss.filter (·.token == id)).map g)) =
      total ((ss.filter fun s => decide (s.token < n)).map g) := by
  induction n with
  | zero =>
    rw [List.filter_eq_nil_iff.2 fun s _ => by simp]
    rfl
  | succ n ih =>
    rw [List.range_succ, List.map_append, total_append, ih, List.map_singleton, total_cons, total_nil, Nat.add_zero]
    refine (total_filter_add g fun s _ => ?_).symm
    simp only [decide_eq_true_eq, beq_iff_eq]
    omega

theorem total_map_add {α : Type} (f g : α → Nat) (l : List α) :
    total (l.map fun a => f a + g a) = total (l.map f) + total (l.map g) := by
  induction l with
  | nil => rfl
  | cons a l ih =>
    rw [List.map_cons, List.map_cons, List.map_cons, total_cons, total_cons, total_cons, ih]
    omega

namespace Document

variable {d : Document}

theorem length_eq_total (d : Document) :
    d.length = total ((List.range d.size).map fun id => (d.token id).fullWidth) := by
  have hmap : d.tokens.toList = (List.range d.size).map d.token :=
    List.ext_getElem (by simp [size]) fun i h₁ h₂ => by
      rw [List.getElem_map, List.getElem_range, d.token_eq_getElem h₁, Array.getElem_toList]
  rw [length, d.text_eq, utf8ByteSize_textOf, hmap, List.map_map]
  rfl

/-- The length of the text after splices: what they take away is gone, and what they carry is put in. -/
def lengthAfter (d : Document) (ss : List Splice) : Nat :=
  d.length + total (ss.map fun s => listWidth s.replacement) -
    total (ss.map fun s => listWidth (s.cutFrom ((d.token s.token).trivia s.slot)))

theorem lengthAfter_perm (d : Document) {ss ss' : List Splice} (h : ss.Perm ss') :
    d.lengthAfter ss = d.lengthAfter ss' := by
  rw [lengthAfter, lengthAfter, total_perm (h.map _), total_perm (h.map _)]

/-- **The length of the text after splices that can be made.** -/
theorem total_splice {ss : List Splice} {f : Nat → Token} (hss : ∀ s ∈ ss, s.token < d.size)
    (hf : ∀ id < d.size, (d.token id).splice id (ss.filter (·.token == id)) = .ok (f id)) :
    total (((List.range d.size).map f).map Token.fullWidth) = d.lengthAfter ss := by
  let cut (s : Splice) : Nat := listWidth (s.cutFrom ((d.token s.token).trivia s.slot))
  let put (s : Splice) : Nat := listWidth s.replacement
  have hsum : ∀ g : Splice → Nat,
      total (ss.map g) = total ((List.range d.size).map fun id => total ((ss.filter (·.token == id)).map g)) := by
    intro g
    rw [total_splices, List.filter_eq_self.2 fun s hs => decide_eq_true (hss s hs)]
  have htoken : ∀ id ∈ List.range d.size,
      (f id).fullWidth + total ((ss.filter (·.token == id)).map cut) =
        (d.token id).fullWidth + total ((ss.filter (·.token == id)).map put) := by
    intro id hid
    rw [← Token.fullWidth_splice (hf id (List.mem_range.1 hid))]
    congr 2
    refine List.map_congr_left fun s hs => ?_
    rw [← eq_of_beq (List.mem_filter.1 hs).2]
  have key := congrArg total (List.map_congr_left htoken)
  rw [total_map_add, total_map_add, ← hsum, ← hsum, ← length_eq_total] at key
  rw [List.map_map, lengthAfter]
  exact (Nat.sub_eq_of_eq_add key.symm).symm

/-- **Splices that every token takes make a document of the tokens**, unless it is too large for one. -/
theorem Proper.splice_cases (h : d.Proper) {ss : List Splice} {f : Nat → Token}
    (hf : ∀ id, ∃ leading trailing, f id = { d.token id with leading, trailing }) (hss : ∀ s ∈ ss, s.token < d.size)
    (hmade : ∀ id < d.size, (d.token id).splice id (ss.filter (·.token == id)) = .ok (f id)) :
    (∃ e, d.splice ss = .ok e ∧ e.tokens.toList = (List.range d.size).map f ∧ e.length = d.lengthAfter ss) ∨
      (d.splice ss = .error (.document .tooLarge) ∧ maxBytes < d.lengthAfter ss) := by
  have hlength := total_splice hss hmade
  rw [splice_eq hss hmade]
  rcases (h.whole_map hf).ofTokens with ⟨e, he, htokens⟩ | ⟨he, hlarge⟩
  · rw [he]
    refine .inl ⟨e, rfl, htokens, ?_⟩
    rw [length, e.text_eq, utf8ByteSize_textOf, htokens, hlength]
  · rw [he]
    exact .inr ⟨rfl, hlength ▸ hlarge⟩

/-- **Splices that every token takes are made for an edit exactly when the text is not too large with them.** -/
theorem Proper.applySplices_exact (h : d.Proper) {ss : List Splice} {f : Nat → Token}
    (hf : ∀ id, ∃ leading trailing, f id = { d.token id with leading, trailing }) (hss : ∀ s ∈ ss, s.token < d.size)
    (hmade : ∀ id < d.size, (d.token id).splice id (ss.filter (·.token == id)) = .ok (f id)) :
    (d.lengthAfter ss ≤ maxBytes →
      ∃ q, d.applySplices ss = .ok q ∧ q.tokens.toList = (List.range d.size).map f) ∧
    (maxBytes < d.lengthAfter ss → d.applySplices ss = .error (.invalidSplice (.document .tooLarge))) := by
  rw [applySplices]
  rcases h.splice_cases hf hss hmade with ⟨q, hq, htokens, hlength⟩ | ⟨herror, hlarge⟩
  · rw [hq]
    have hle := q.length_le
    exact ⟨fun _ => ⟨q, rfl, htokens⟩, fun hlarge => absurd hlarge (by omega)⟩
  · rw [herror]
    exact ⟨fun hle => absurd hle (by omega), fun _ => rfl⟩

/-- Splices that put nothing in do not make a text longer. -/
theorem lengthAfter_le (d : Document) {ss : List Splice} (h : ∀ s ∈ ss, s.replacement = []) :
    d.lengthAfter ss ≤ d.length := by
  rw [lengthAfter, Splice.total_replacement h]
  exact Nat.sub_le _ _

end Document

end LayoutLint
