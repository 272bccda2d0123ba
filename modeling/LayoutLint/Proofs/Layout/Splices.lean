import LayoutLint.Document.Splice
import LayoutLint.Proofs.Layout.Gaps
/-!
# Splices — what splices leave of trivia

Mending takes single pieces out of a list of trivia, and it replaces all of a list from some piece on. Splices of these
two kinds that start at different pieces can be made together, in any order, and leave the pieces that none of them
takes (`applyAll_eq`). A document with splices made has the words it had, each with the trivia left
(`Document.splice_eq`).
-/
namespace LayoutLint

/-- The trivia without the pieces whose numbers pass the test. -/
def dropAt (p : Nat → Bool) : List Trivia → List Trivia
  | [] => []
  | t :: g => if p 0 then dropAt (fun i => p (i + 1)) g else t :: dropAt (fun i => p (i + 1)) g

theorem dropAt_append (p : Nat → Bool) (a b : List Trivia) :
    dropAt p (a ++ b) = dropAt p a ++ dropAt (fun i => p (a.length + i)) b := by
  induction a generalizing p with
  | nil => simp only [List.nil_append, dropAt, List.length_nil, Nat.zero_add]
  | cons t a ih =>
    have hp : (fun i => p ((t :: a).length + i)) = fun i => p (a.length + i + 1) := by
      funext i
      rw [List.length_cons, Nat.add_right_comm]
    rw [List.cons_append, dropAt, dropAt, ih, hp]
    split <;> rfl

theorem dropAt_congr {p q : Nat → Bool} {g : List Trivia} (h : ∀ i < g.length, p i = q i) :
    dropAt p g = dropAt q g := by
  induction g generalizing p q with
  | nil => rfl
  | cons t g ih =>
    rw [dropAt, dropAt, h 0 (Nat.zero_lt_succ _), ih fun i hi => h (i + 1) (Nat.succ_lt_succ hi)]

theorem dropAt_eq_self {p : Nat → Bool} {g : List Trivia} (h : ∀ i < g.length, p i = false) : dropAt p g = g := by
  induction g generalizing p with
  | nil => rfl
  | cons t g ih =>
    rw [dropAt, if_neg (by rw [h 0 (Nat.zero_lt_succ _)]; exact Bool.false_ne_true),
      ih fun i hi => h (i + 1) (Nat.succ_lt_succ hi)]

namespace Splice

/-- What goes for the splices of each trivia list goes for those of one. -/
theorem pairwise_of_slot {R : Splice → Splice → Prop} {ss : List Splice}
    (h : ss.Pairwise fun s t => s.token = t.token → s.slot = t.slot → R s t) (id : Nat) (slot : Slot) :
    ((ss.filter (·.token == id)).filter (·.slot == slot)).Pairwise R := by
  rw [List.pairwise_filter, List.pairwise_filter]
  refine h.imp fun {s t} hst hs ht hs' ht' => hst ?_ ?_
  · rw [beq_iff_eq.1 hs, beq_iff_eq.1 ht]
  · rw [beq_iff_eq.1 hs', beq_iff_eq.1 ht']

/-- Splices that follow one another from the end of a list to its start leave what stands behind all of them. -/
theorem foldl_apply_append {ss : List Splice} {a b : List Trivia} (hclear : ss.Pairwise fun s t => t.stop ≤ s.start)
    (hss : ∀ s ∈ ss, s.start ≤ s.stop ∧ s.stop ≤ a.length) : ss.foldl apply (a ++ b) = ss.foldl apply a ++ b := by
  induction ss generalizing a with
  | nil => rfl
  | cons s ss ih =>
    obtain ⟨hs, hrest⟩ := List.pairwise_cons.1 hclear
    have hb := hss s List.mem_cons_self
    have happly : apply (a ++ b) s = apply a s ++ b := by
      rw [apply, apply, List.take_append_of_le_length (by omega), List.drop_append_of_le_length hb.2]
      simp
    rw [List.foldl_cons, List.foldl_cons, happly, ih hrest fun t ht => ⟨(hss t (List.mem_cons_of_mem _ ht)).1, ?_⟩]
    have := hs t ht
    rw [apply, List.length_append, List.length_append, List.length_take]
    omega

theorem foldl_apply_cons {s : Splice} {ss : List Splice} {ts : List Trivia}
    (hclear : (s :: ss).Pairwise fun s t => t.stop ≤ s.start) (hss : ∀ t ∈ ss, t.start ≤ t.stop)
    (hs : s.start ≤ ts.length) :
    (s :: ss).foldl apply ts = ss.foldl apply (ts.take s.start) ++ (s.replacement ++ ts.drop s.stop) := by
  obtain ⟨hs', hrest⟩ := List.pairwise_cons.1 hclear
  rw [List.foldl_cons, apply, List.append_assoc]
  refine foldl_apply_append hrest fun t ht => ⟨hss t ht, ?_⟩
  have := hs' t ht
  rw [List.length_take]
  omega

/-- Takes one piece away. -/
def IsRemoval (s : Splice) : Prop := s.stop = s.start + 1 ∧ s.replacement = []

/-- Single pieces taken away, the latest first. -/
theorem foldl_apply_removals {ss : List Splice} {ts : List Trivia}
    (hclear : ss.Pairwise fun s t => t.start < s.start) (hss : ∀ s ∈ ss, s.IsRemoval ∧ s.start < ts.length) :
    ss.foldl apply ts = dropAt (fun i => ss.any (·.start == i)) ts := by
  induction ss generalizing ts with
  | nil => exact (dropAt_eq_self fun _ _ => rfl).symm
  | cons s ss ih =>
    obtain ⟨hs, hrest⟩ := List.pairwise_cons.1 hclear
    obtain ⟨⟨hstop, hrepl⟩, hlt⟩ := hss s List.mem_cons_self
    have hlen : (ts.take s.start).length = s.start := by rw [List.length_take]; omega
    have hclear' : (s :: ss).Pairwise fun s t => t.stop ≤ s.start := by
      refine hclear.imp_of_mem fun {a b} _ hb hab => ?_
      have := (hss b hb).1.1
      omega
    rw [foldl_apply_cons hclear' (fun t ht => by have := (hss t (List.mem_cons_of_mem _ ht)).1.1; omega)
      (Nat.le_of_lt hlt), ih hrest fun t ht => ⟨(hss t (List.mem_cons_of_mem _ ht)).1, by rw [hlen]; exact hs t ht⟩,
      hrepl, List.nil_append, hstop]
    have hts : ts = ts.take s.start ++ ts[s.start] :: ts.drop (s.start + 1) := by
      rw [← List.drop_eq_getElem_cons hlt, List.take_append_drop]
    conv => rhs; rw [hts]
    rw [dropAt_append, hlen, dropAt, if_pos (by simp)]
    congr 1
    · refine dropAt_congr fun i hi => ?_
      rw [hlen] at hi
      rw [List.any_cons, show (s.start == i) = false from beq_eq_false_iff_ne.2 (by omega), Bool.false_or]
    · refine (dropAt_eq_self fun i _ => ?_).symm
      rw [List.any_eq_false]
      intro t ht
      rw [beq_iff_eq]
      rcases List.mem_cons.1 ht with rfl | ht
      · omega
      · have := hs t ht
        omega

/-- Splices in the order in which they are made. -/
theorem pairwise_mergeSort (ss : List Splice) :
    (ss.mergeSort laterFirst).Pairwise fun s t => laterFirst s t = true := by
  refine List.pairwise_mergeSort (fun a b c hab hbc => ?_) (fun a b => ?_) ss
  · simp only [laterFirst, Bool.or_eq_true, Bool.and_eq_true, decide_eq_true_eq, beq_iff_eq] at hab hbc ⊢
    omega
  · simp only [laterFirst, Bool.or_eq_true, Bool.and_eq_true, decide_eq_true_eq, beq_iff_eq]
    omega

theorem allClear_of_pairwise {ss : List Splice} (h : ss.Pairwise fun s t => s.clearOf t = true) :
    allClear ss = true := by
  match ss, h with
  | [], _ => rfl
  | [_], _ => rfl
  | s :: t :: ss, h =>
    obtain ⟨hs, hrest⟩ := List.pairwise_cons.1 h
    rw [allClear, hs t List.mem_cons_self, allClear_of_pairwise hrest, Bool.and_true]

/-- Takes one piece in front of piece `c`, or puts `added` in the place of the pieces from there up to `stop`. -/
def Fits (c stop : Nat) (added : List Trivia) (s : Splice) : Prop :=
  (s.IsRemoval ∧ s.start < c) ∨ (s.start = c ∧ s.stop = stop ∧ s.replacement = added)

/-- Splices in the order in which they are made. A splice at `c` comes first. -/
theorem foldl_apply_eq {ts : List Trivia} {ss : List Splice} {c : Nat} {added : List Trivia} (hc : c ≤ ts.length)
    (hss : ∀ s ∈ ss, s.Fits c ts.length added) (hlater : ss.Pairwise fun s t => t.start < s.start)
    (hcut : (∃ s ∈ ss, s.start = c) ∨ (c = ts.length ∧ added = [])) :
    ss.foldl apply ts = dropAt (fun i => ss.any (·.start == i)) (ts.take c) ++ added := by
  have hremoval : ∀ s ∈ ss, s.start ≠ c → s.IsRemoval ∧ s.start < c := fun s hs hne =>
    (hss s hs).resolve_right fun h => hne h.1
  cases ss with
  | nil =>
    obtain ⟨s, hs, -⟩ | ⟨rfl, rfl⟩ := hcut
    · cases hs
    · rw [List.take_length, List.append_nil]
      exact (dropAt_eq_self fun _ _ => rfl).symm
  | cons s rest =>
    obtain ⟨hs, hrest⟩ := List.pairwise_cons.1 hlater
    have hlt : ∀ t ∈ rest, t.start < c := by
      intro t ht
      have := hs t ht
      rcases hss s List.mem_cons_self with ⟨-, h⟩ | ⟨h, -⟩ <;> omega
    have hrest' : ∀ t ∈ rest, t.IsRemoval ∧ t.start < c := fun t ht =>
      hremoval t (List.mem_cons_of_mem _ ht) (Nat.ne_of_lt (hlt t ht))
    by_cases hsc : s.start = c
    · obtain ⟨hstop, hrepl⟩ : s.stop = ts.length ∧ s.replacement = added := by
        rcases hss s List.mem_cons_self with ⟨-, h⟩ | ⟨-, h⟩
        · omega
        · exact h
      have hclear : (s :: rest).Pairwise fun s t => t.stop ≤ s.start := by
        refine List.pairwise_cons.2 ⟨fun t ht => ?_, hrest.imp_of_mem fun {t u} _ hu htu => ?_⟩
        · have := (hrest' t ht).1.1
          have := hlt t ht
          omega
        · have := (hrest' u hu).1.1
          omega
      rw [foldl_apply_cons hclear (fun t ht => by have := (hrest' t ht).1.1; omega) (by omega), hsc, hstop, hrepl,
        List.drop_length, List.append_nil, foldl_apply_removals hrest fun t ht => ⟨(hrest' t ht).1, ?_⟩]
      · congr 1
        refine dropAt_congr fun i hi => ?_
        rw [List.length_take] at hi
        rw [List.any_cons, hsc, show (c == i) = false from beq_eq_false_iff_ne.2 (by omega), Bool.false_or]
      · have := hlt t ht
        rw [List.length_take]
        omega
    · obtain ⟨t, ht, htc⟩ | ⟨rfl, rfl⟩ := hcut
      · rcases List.mem_cons.1 ht with rfl | ht
        · exact absurd htc hsc
        · exact absurd htc (Nat.ne_of_lt (hlt t ht))
      · rw [List.take_length, List.append_nil]
        refine foldl_apply_removals hlater fun t ht => hremoval t ht ?_
        rcases List.mem_cons.1 ht with rfl | ht
        · exact hsc
        · exact Nat.ne_of_lt (hlt t ht)

/-- **What splices leave of a list**: those that take single pieces in front of piece `c`, and one that puts `a` in the
place of all from there on. -/
theorem applyAll_eq {id : Nat} {ts : List Trivia} {ss : List Splice} {c : Nat} {a : List Trivia}
    (hc : c ≤ ts.length) (hss : ∀ s ∈ ss, s.Fits c ts.length a) (hd : ss.Pairwise fun s t => s.start ≠ t.start)
    (hcut : (∃ s ∈ ss, s.start = c) ∨ (c = ts.length ∧ a = [])) :
    applyAll id ts ss = .ok (dropAt (fun i => ss.any (·.start == i)) (ts.take c) ++ a) := by
  have hperm : (ss.mergeSort laterFirst).Perm ss := List.mergeSort_perm ss laterFirst
  have hmem : ∀ s ∈ ss.mergeSort laterFirst, s.Fits c ts.length a := fun s hs => hss s (hperm.subset hs)
  have hlater : (ss.mergeSort laterFirst).Pairwise fun s t => t.start < s.start := by
    refine ((pairwise_mergeSort ss).and (hperm.symm.pairwise hd fun h => Ne.symm h)).imp fun {s t} ⟨h, hne⟩ => ?_
    simp only [laterFirst, Bool.or_eq_true, Bool.and_eq_true, decide_eq_true_eq, beq_iff_eq] at h
    omega
  have hclear : (ss.mergeSort laterFirst).Pairwise fun s t => s.clearOf t = true := by
    refine hlater.imp_of_mem fun {s t} hs ht hlt => ?_
    simp only [clearOf, Bool.and_eq_true, decide_eq_true_eq, bne_iff_ne]
    rcases hmem t ht with ⟨⟨h₁, -⟩, h₂⟩ | ⟨h₁, -⟩
    · omega
    · rcases hmem s hs with ⟨-, h₂⟩ | ⟨h₂, -⟩ <;> omega
  have hnone : (ss.mergeSort laterFirst).find? (fun s => s.stop < s.start || ts.length < s.stop) = none := by
    rw [List.find?_eq_none]
    intro s hs
    simp only [Bool.or_eq_true, decide_eq_true_eq]
    rcases hmem s hs with ⟨⟨h₁, -⟩, h₂⟩ | ⟨h₁, h₂, -⟩ <;> omega
  have hany : (fun i => (ss.mergeSort laterFirst).any (·.start == i)) = fun i => ss.any (·.start == i) := by
    funext i
    rw [hperm.any_eq]
  rw [applyAll, hnone, allClear_of_pairwise hclear]
  simp only [if_true, Except.ok.injEq]
  rw [foldl_apply_eq hc hmem hlater (hcut.imp_left fun ⟨s, hs, h⟩ => ⟨s, hperm.symm.subset hs, h⟩), hany]

theorem applyAll_nil (id : Nat) (ts : List Trivia) : applyAll id ts [] = .ok ts := by
  rw [applyAll_eq (Nat.le_refl _) (by simp) .nil (.inr ⟨rfl, rfl⟩), List.take_length, List.append_nil]
  exact congrArg _ (dropAt_eq_self fun _ _ => rfl)

end Splice

/-- A token with splices made. -/
theorem Token.splice_eq {id : Nat} {t : Token} {ss : List Splice} {leading trailing : List Trivia}
    (hm : t.missing = false) (hl : Splice.applyAll id t.leading (ss.filter (·.slot == .leading)) = .ok leading)
    (ht : Splice.applyAll id t.trailing (ss.filter (·.slot == .trailing)) = .ok trailing) :
    t.splice id ss = .ok { t with leading, trailing } := by
  rw [Token.splice]
  cases ss with
  | nil =>
    rw [List.filter_nil, Splice.applyAll_nil, Except.ok.injEq] at hl ht
    rw [← hl, ← ht]
    rfl
  | cons s ss =>
    rw [hm, hl, ht]
    rfl

/-- **Which splices of one token can be made together.** A missing token takes none. -/
theorem Token.splice_eq_ok_iff {id : Nat} {t t' : Token} {ss : List Splice} : t.splice id ss = .ok t' ↔
    (ss ≠ [] → t.missing = false) ∧ ∃ leading trailing,
      Splice.applyAll id t.leading (ss.filter (·.slot == .leading)) = .ok leading ∧
      Splice.applyAll id t.trailing (ss.filter (·.slot == .trailing)) = .ok trailing ∧
      t' = { t with leading, trailing } := by
  constructor
  · intro h
    by_cases hnil : ss = []
    · subst hnil
      obtain rfl : t = t' := Except.ok.inj h
      exact ⟨fun h => absurd rfl h, t.leading, t.trailing, Splice.applyAll_nil _ _, Splice.applyAll_nil _ _, rfl⟩
    · rw [Token.splice, if_neg (by rwa [List.isEmpty_iff])] at h
      split at h
      · cases h
      · rename_i hm
        refine ⟨fun _ => Bool.eq_false_iff.2 hm, ?_⟩
        obtain ⟨leading, hl, h⟩ := bind_eq_ok_iff.1 h
        obtain ⟨trailing, ht, h⟩ := bind_eq_ok_iff.1 h
        exact ⟨leading, trailing, hl, ht, (Except.ok.inj h).symm⟩
  · rintro ⟨hm, leading, trailing, hl, ht, rfl⟩
    by_cases hnil : ss = []
    · subst hnil
      rw [List.filter_nil, Splice.applyAll_nil, Except.ok.injEq] at hl ht
      rw [← hl, ← ht]
      rfl
    · exact Token.splice_eq (hm hnil) hl ht

theorem Splice.getD_byToken {n : Nat} (ss : List Splice) {id : Nat} (hid : id < n) :
    (Splice.byToken n ss).getD id [] = ss.filter (·.token == id) ∧ (Splice.byToken n ss).size = n := by
  induction ss with
  | nil => simp [Splice.byToken, Array.getD, hid]
  | cons s ss ih =>
    have hcons : Splice.byToken n (s :: ss) = (Splice.byToken n ss).modify s.token (s :: ·) := rfl
    obtain ⟨hget, hsize⟩ := ih
    refine ⟨?_, by rw [hcons, Array.size_modify, hsize]⟩
    rw [Array.getD_eq_getD_getElem?] at hget ⊢
    rw [hcons, Array.getElem?_modify]
    by_cases hs : s.token = id
    · rw [if_pos hs, List.filter_cons_of_pos (by simpa using hs), ← hget,
        Array.getElem?_eq_getElem (by rw [hsize]; exact hid)]
      rfl
    · rw [if_neg hs, List.filter_cons_of_neg (by simpa using hs), ← hget]

namespace Document

variable {d : Document}

/-- Each token is made with the splices that name it. -/
theorem mapM_splice_eq_ok_iff {ss : List Splice} {l : List Token} :
    (d.tokens.toList.zipIdx.mapM fun (t, id) => t.splice id ((Splice.byToken d.size ss).getD id [])) = .ok l ↔
      l.length = d.size ∧ ∀ id (h : id < l.length), (d.token id).splice id (ss.filter (·.token == id)) = .ok l[id] := by
  have hlen : d.tokens.toList.zipIdx.length = d.size := List.length_zipIdx
  have hone : ∀ id h, id < d.size →
      ((fun (t, id) => t.splice id ((Splice.byToken d.size ss).getD id []) : Token × Nat → Except SpliceError Token)
        (d.tokens.toList.zipIdx.get ⟨id, h⟩)) = (d.token id).splice id (ss.filter (·.token == id)) := by
    intro id h hid
    rw [List.get_eq_getElem, List.getElem_zipIdx, Nat.zero_add, d.token_eq_getElem hid,
      ← (Splice.getD_byToken ss hid).1]
    rfl
  rw [mapM_eq_ok_iff, List.forall₂_iff_get]
  constructor
  · rintro ⟨hsize, h⟩
    exact ⟨hsize.symm.trans hlen, fun id hid => (hone id (by omega) (by omega)).symm.trans (h id (by omega) hid)⟩
  · rintro ⟨hsize, h⟩
    exact ⟨hlen.trans hsize.symm, fun id hid hid' => (hone id hid (by omega)).trans (h id hid')⟩

/-- **A document with splices made.** -/
theorem splice_eq {ss : List Splice} {f : Nat → Token} (hss : ∀ s ∈ ss, s.token < d.size)
    (hf : ∀ id < d.size, (d.token id).splice id (ss.filter (·.token == id)) = .ok (f id)) :
    d.splice ss = match ofTokens ((List.range d.size).map f).toArray with
      | .ok e => .ok e
      | .error e => .error (.document e) := by
  have hfind : ss.find? (fun s => d.size ≤ s.token) = none := by
    rw [List.find?_eq_none]
    intro s hs
    have := hss s hs
    simp only [decide_eq_true_eq]
    omega
  have hmap : (d.tokens.toList.zipIdx.mapM fun (t, id) => t.splice id ((Splice.byToken d.size ss).getD id [])) =
      .ok ((List.range d.size).map f) := by
    refine mapM_splice_eq_ok_iff.2 ⟨by rw [List.length_map, List.length_range], fun id h => ?_⟩
    rw [List.length_map, List.length_range] at h
    rw [List.getElem_map, List.getElem_range, hf id h]
  rw [splice, hfind]
  show (List.mapM _ _ >>= _) = _
  rw [hmap]
  dsimp only [bind, Except.bind]
  cases ofTokens ((List.range d.size).map f).toArray <;> rfl

end Document

end LayoutLint
