import LayoutLint.Proofs.Layout.Boundaries
import LayoutLint.Proofs.Layout.Turns
import Mathlib.Data.List.Perm.Basic
/-!
# Substitution — splices made at once

Splices are made one after another, the latest place first, yet what they make can be told from the list as it was: at
each place stand the pieces that a splice puts in there, and then the piece that stood there, unless a splice takes it
(`Splice.substitute`, `Splice.applyAll_eq_substitute`). The same holds of the text: the bytes of each run that a splice
takes away are replaced by the text that it puts in, all places being those of the text as it was (`Text.replace?`,
`Document.replace?_splice`). So the order in which splices are given says nothing (`Document.substitutes_of_splice`).
-/
namespace LayoutLint

open Piece (charsOf)
open Text (width splitAtByte?)
open Trivia (listWidth listWidth_append)

/-! ### Texts -/

namespace Text

/-- The text, which starts at `offset`, with the bytes of each region replaced by other characters. The regions are in
the order of the text and do not overlap; else, and when one does not start and end between characters, `none`. -/
def replace? (offset : Nat) : List (Span × List Char) → List Char → Option (List Char)
  | [], cs => some cs
  | (s, new) :: edits, cs =>
    if offset ≤ s.start && s.start ≤ s.stop then do
      let (before, rest) ← splitAtByte? (s.start - offset) cs
      let (_, rest) ← splitAtByte? (s.stop - s.start) rest
      return before ++ new ++ (← replace? s.stop edits rest)
    else none

variable {offset : Nat} {edits edits' : List (Span × List Char)} {a a' b b' : List Char}

/-- The first region is replaced, and the others in what stands behind it. -/
theorem replace?_cons_eq_some_iff {s : Span} {new cs cs' : List Char} :
    replace? offset ((s, new) :: edits) cs = some cs' ↔ ∃ before old rest rest', cs = before ++ (old ++ rest) ∧
      s.start = offset + width before ∧ s.stop = s.start + width old ∧ replace? s.stop edits rest = some rest' ∧
      cs' = before ++ (new ++ rest') := by
  rw [replace?]
  constructor
  · intro h
    split at h
    · rename_i hle
      rw [Bool.and_eq_true, decide_eq_true_eq, decide_eq_true_eq] at hle
      obtain ⟨⟨before, r⟩, hbefore, h₁⟩ := Option.bind_eq_some_iff.1 h
      obtain ⟨⟨old, rest⟩, hold, h₂⟩ := Option.bind_eq_some_iff.1 h₁
      obtain ⟨rest', hrest, h₃⟩ := Option.bind_eq_some_iff.1 h₂
      obtain ⟨rfl, hw⟩ := width_of_splitAtByte? hbefore
      obtain ⟨rfl, hw'⟩ := width_of_splitAtByte? hold
      exact ⟨before, old, rest, rest', rfl, by omega, by omega, hrest, by rw [← Option.some.inj h₃, List.append_assoc]⟩
    · cases h
  · rintro ⟨before, old, rest, rest', rfl, hstart, hstop, hrest, rfl⟩
    rw [if_pos (by rw [Bool.and_eq_true, decide_eq_true_eq, decide_eq_true_eq]; omega),
      show s.start - offset = width before by omega, show s.stop - s.start = width old by omega, splitAtByte?_append]
    simp [splitAtByte?_append, hrest]

/-- Regions behind a part of the text leave the part. -/
theorem replace?_append_left (h : replace? (offset + width a) edits b = some b') :
    replace? offset edits (a ++ b) = some (a ++ b') := by
  cases edits with
  | nil => rw [show b = b' from Option.some.inj h]; rfl
  | cons e edits =>
    obtain ⟨s, new⟩ := e
    obtain ⟨before, old, rest, rest', rfl, hstart, hstop, hrest, rfl⟩ := replace?_cons_eq_some_iff.1 h
    refine replace?_cons_eq_some_iff.2 ⟨a ++ before, old, rest, rest', by rw [List.append_assoc], ?_, hstop, hrest,
      by rw [List.append_assoc]⟩
    rw [hstart, width_append, Nat.add_assoc]

/-- **Replacing goes part by part.** -/
theorem replace?_append (ha : replace? offset edits a = some a')
    (hb : replace? (offset + width a) edits' b = some b') :
    replace? offset (edits ++ edits') (a ++ b) = some (a' ++ b') := by
  induction edits generalizing offset a a' with
  | nil =>
    obtain rfl : a = a' := Option.some.inj ha
    exact replace?_append_left hb
  | cons e edits ih =>
    obtain ⟨s, new⟩ := e
    obtain ⟨before, old, rest, rest', rfl, hstart, hstop, hrest, rfl⟩ := replace?_cons_eq_some_iff.1 ha
    refine replace?_cons_eq_some_iff.2 ⟨before, old, rest ++ b, rest' ++ b', by simp only [List.append_assoc], hstart,
      hstop, ih hrest ?_, by simp only [List.append_assoc]⟩
    rw [width_append, width_append, ← Nat.add_assoc, ← Nat.add_assoc, ← hstart, ← hstop] at hb
    exact hb

end Text

/-! ### Lists of trivia -/

namespace Splice

/-- Does the splice take the piece with number `k` away? -/
def takes (s : Splice) (k : Nat) : Bool := s.start ≤ k && k < s.stop

/-- What stands at place `k` of a list: the pieces put in there, and the piece that was there unless it is taken. -/
def standing (ss : List Splice) (ts : List Trivia) (k : Nat) : List Trivia :=
  (ss.filter (·.start == k)).flatMap (·.replacement) ++ if ss.any (·.takes k) then [] else ts[k]?.toList

/-- The list with the run of each splice replaced, place by place. -/
def substitute (ss : List Splice) (ts : List Trivia) : List Trivia :=
  (List.range (ts.length + 1)).flatMap (standing ss ts)

/-- The pieces of a list from place `k` on, without those in front of place `stop`. -/
theorem flatMap_pieces (ts : List Trivia) (stop : Nat) : ∀ {m k : Nat}, ts.length ≤ k + m →
    (List.range' k m).flatMap (fun i => if i < stop then [] else ts[i]?.toList) = ts.drop (max k stop)
  | 0, k, h => by
    rw [List.range'_zero, List.flatMap_nil, List.drop_of_length_le (by omega)]
  | m + 1, k, h => by
    rw [List.range'_succ, List.flatMap_cons, flatMap_pieces ts stop (by omega)]
    split
    · rename_i hk
      rw [Nat.max_eq_right (by omega), Nat.max_eq_right (by omega)]
      rfl
    · rename_i hk
      rw [Nat.max_eq_left (by omega), Nat.max_eq_left (by omega)]
      exact List.drop_eq_getElem?_toList_append.symm

theorem substitute_nil (ts : List Trivia) : substitute [] ts = ts := by
  have h := flatMap_pieces ts 0 (k := 0) (m := ts.length + 1) (by omega)
  rw [← List.range_eq_range', Nat.max_self, List.drop_zero] at h
  exact h

variable {s : Splice} {ss : List Splice} {ts : List Trivia}

/-- In front of a splice the list is as if it were not there. -/
theorem standing_of_lt {k : Nat} (hk : k < s.start) : standing (s :: ss) ts k = standing ss (ts.take s.start) k := by
  have htakes : s.takes k = false := by
    rw [takes, Bool.and_eq_false_iff, decide_eq_false_iff_not]
    exact .inl (Nat.not_le.2 hk)
  rw [standing, standing, List.filter_cons_of_neg (by rw [beq_iff_eq]; omega), List.any_cons, htakes, Bool.false_or,
    List.getElem?_take_of_lt hk]

/-- Behind splices none starts, and none takes a piece. -/
theorem none_behind {k : Nat} (hss : ∀ t ∈ ss, t.start < k ∧ t.stop ≤ k) :
    ss.filter (·.start == k) = [] ∧ ss.any (·.takes k) = false := by
  refine ⟨List.filter_eq_nil_iff.2 fun t ht => ?_, List.any_eq_false.2 fun t ht => ?_⟩
  · rw [beq_iff_eq]
    exact Nat.ne_of_lt (hss t ht).1
  · rw [takes, Bool.and_eq_true, decide_eq_true_eq, decide_eq_true_eq]
    exact fun h => absurd h.2 (Nat.not_lt.2 (hss t ht).2)

theorem standing_of_behind {k : Nat} (hss : ∀ t ∈ ss, t.start < k ∧ t.stop ≤ k) :
    standing ss ts k = ts[k]?.toList := by
  rw [standing, (none_behind hss).1, (none_behind hss).2]
  rfl

/-- From where a splice behind all others starts there are only its pieces and those that it does not take. -/
theorem standing_cons_of_le {k : Nat} (hss : ∀ t ∈ ss, t.start < k ∧ t.stop ≤ k) (hk : s.start ≤ k) :
    standing (s :: ss) ts k =
      (if s.start = k then s.replacement else []) ++ if k < s.stop then [] else ts[k]?.toList := by
  have htakes : s.takes k = decide (k < s.stop) := by
    rw [takes, decide_eq_true hk, Bool.true_and]
  have hput : ((s :: ss).filter (·.start == k)).flatMap (·.replacement) =
      if s.start = k then s.replacement else [] := by
    rw [List.filter_cons, (none_behind hss).1]
    by_cases h : s.start = k
    · rw [if_pos h, if_pos (beq_iff_eq.2 h), List.flatMap_singleton]
    · rw [if_neg h, if_neg (by rwa [beq_iff_eq]), List.flatMap_nil]
  rw [standing, hput, List.any_cons, (none_behind hss).2, Bool.or_false, htakes]
  simp only [decide_eq_true_eq]

/-- **A splice behind all others** leaves what they make of the pieces in front of it. -/
theorem substitute_cons (hs : s.InBounds ts) (hss : ∀ t ∈ ss, t.start < s.start ∧ t.stop ≤ s.start) :
    substitute (s :: ss) ts = substitute ss (ts.take s.start) ++ (s.replacement ++ ts.drop s.stop) := by
  obtain ⟨m, hm⟩ := Nat.exists_eq_add_of_le (Nat.le_trans hs.1 hs.2)
  have hlen : (ts.take s.start).length = s.start := by rw [List.length_take, hm, Nat.min_eq_left (Nat.le_add_right _ _)]
  have hlast : standing ss (ts.take s.start) s.start = [] := by
    rw [standing_of_behind hss, List.getElem?_eq_none (Nat.le_of_eq hlen)]
    rfl
  have hfront : substitute ss (ts.take s.start) = (List.range s.start).flatMap (standing (s :: ss) ts) := by
    rw [substitute, hlen, List.range_succ, List.flatMap_append, List.flatMap_singleton, hlast, List.append_nil]
    exact List.flatMap_congr fun k hk => (standing_of_lt (List.mem_range.1 hk)).symm
  have hbehind : (List.range' s.start (m + 1)).flatMap (standing (s :: ss) ts) = s.replacement ++ ts.drop s.stop := by
    have hpieces := flatMap_pieces ts s.stop (m := m + 1) (k := s.start) (by omega)
    rw [List.range'_succ, List.flatMap_cons, Nat.max_eq_right hs.1] at hpieces
    rw [List.range'_succ, List.flatMap_cons, standing_cons_of_le hss (Nat.le_refl _), if_pos rfl, List.append_assoc,
      ← hpieces]
    refine congrArg _ (congrArg _ (List.flatMap_congr fun k hk => ?_))
    have hk := (List.mem_range'_1.1 hk).1
    rw [standing_cons_of_le (fun t ht => by have := hss t ht; omega) (by omega), if_neg (by omega), List.nil_append]
  rw [hfront, ← hbehind, substitute, hm, List.range_eq_range', List.range_eq_range', Nat.add_assoc,
    ← List.flatMap_append, ← List.range'_append_1, Nat.zero_add]

/-- **Splices made one after another, the latest place first, are made at once.** -/
theorem foldl_apply_eq_substitute : ∀ {ss : List Splice} {ts : List Trivia},
    (ss.Pairwise fun s t => t.start < s.start ∧ t.stop ≤ s.start) → (∀ s ∈ ss, s.InBounds ts) →
      ss.foldl apply ts = substitute ss ts
  | [], ts, _, _ => (substitute_nil ts).symm
  | s :: ss, ts, hclear, hin => by
    obtain ⟨hs, hrest⟩ := List.pairwise_cons.1 hclear
    have hb := hin s List.mem_cons_self
    have hlen : (ts.take s.start).length = s.start := by
      rw [List.length_take, Nat.min_eq_left (Nat.le_trans hb.1 hb.2)]
    rw [foldl_apply_cons (hclear.imp And.right) (fun t ht => (hin t (List.mem_cons_of_mem _ ht)).1)
      (Nat.le_trans hb.1 hb.2), substitute_cons hb hs,
      foldl_apply_eq_substitute hrest fun t ht => ⟨(hin t (List.mem_cons_of_mem _ ht)).1, ?_⟩]
    rw [hlen]
    exact (hs t ht).2

/-- Splices that are apart, in the order in which they are made. -/
theorem pairwise_later (hin : ∀ s ∈ ss, s.InBounds ts) (hapart : ss.Pairwise Apart) :
    (ss.mergeSort laterFirst).Pairwise fun s t => t.start < s.start ∧ t.stop ≤ s.start := by
  have hperm := List.mergeSort_perm ss laterFirst
  refine ((pairwise_mergeSort ss).and (hperm.symm.pairwise hapart symm)).imp_of_mem fun {s t} hs ht ⟨hle, hst⟩ => ?_
  have hle := laterFirst_iff.1 hle
  have hs := (hin s (hperm.subset hs)).1
  unfold Apart at hst
  omega

/-- What splices that are apart make of a list does not depend on their order. -/
theorem substitute_perm {ss' : List Splice} (hp : ss.Perm ss') (hapart : ss.Pairwise Apart) (ts : List Trivia) :
    substitute ss ts = substitute ss' ts := by
  refine List.flatMap_congr fun k _ => ?_
  have hfilter : ss.filter (·.start == k) = ss'.filter (·.start == k) := by
    -- At most one splice starts at the place, so the lists have one order only.
    refine List.Perm.eq_of_pairwise (fun s t hs ht h _ => ?_) (hapart.filter _)
      ((hp.pairwise hapart symm).filter _) (hp.filter _)
    have hs := beq_iff_eq.1 (List.mem_filter.1 hs).2
    have ht := beq_iff_eq.1 (List.mem_filter.1 ht).2
    exact absurd (hs.trans ht.symm) h.1
  rw [standing, standing, hfilter, hp.any_eq]

/-- **Splices that a list takes are made at once.** -/
theorem applyAll_eq_substitute {id : Nat} {ts' : List Trivia} (h : applyAll id ts ss = .ok ts') :
    ts' = substitute ss ts := by
  obtain ⟨hin, hapart, rfl⟩ := applyAll_eq_ok_iff.1 h
  have hperm := List.mergeSort_perm ss laterFirst
  rw [substitute_perm hperm.symm hapart,
    foldl_apply_eq_substitute (pairwise_later hin hapart) fun s hs => hin s (hperm.subset hs)]

/-! ### The text of trivia -/

/-- The characters that the splice puts in. -/
def inserted (s : Splice) : List Char := charsOf (s.replacement.map .trivia)

/-- The bytes that the splice takes away of a list that starts at `offset`, and what it puts in for them. -/
def editIn (offset : Nat) (ts : List Trivia) (s : Splice) : Span × List Char :=
  (⟨offset + listWidth (ts.take s.start), offset + listWidth (ts.take s.stop)⟩, s.inserted)

/-- **The text of a list with splices made** is the text of the list with the bytes of each run replaced. -/
theorem replace?_foldl_apply (offset : Nat) : ∀ {ss : List Splice} {ts : List Trivia},
    (ss.Pairwise fun s t => t.start < s.start ∧ t.stop ≤ s.start) → (∀ s ∈ ss, s.InBounds ts) →
      Text.replace? offset (ss.reverse.map (editIn offset ts)) (charsOf (ts.map .trivia)) =
        some (charsOf ((ss.foldl apply ts).map .trivia))
  | [], _, _, _ => rfl
  | s :: ss, ts, hclear, hin => by
    obtain ⟨hs, hrest⟩ := List.pairwise_cons.1 hclear
    have hb := hin s List.mem_cons_self
    have hlen : (ts.take s.start).length = s.start := by
      rw [List.length_take, Nat.min_eq_left (Nat.le_trans hb.1 hb.2)]
    have hin' : ∀ t ∈ ss, t.InBounds (ts.take s.start) := fun t ht =>
      ⟨(hin t (List.mem_cons_of_mem _ ht)).1, by rw [hlen]; exact (hs t ht).2⟩
    have hfront := replace?_foldl_apply offset hrest hin'
    have hedits : ss.reverse.map (editIn offset (ts.take s.start)) = ss.reverse.map (editIn offset ts) := by
      refine List.map_congr_left fun t ht => ?_
      have := hs t (List.mem_reverse.1 ht)
      rw [editIn, editIn, List.take_take, List.take_take, Nat.min_eq_left (by omega), Nat.min_eq_left (by omega)]
    have htext : charsOf (ts.map .trivia) = charsOf ((ts.take s.start).map .trivia) ++
        (charsOf ((cutFrom ts s).map .trivia) ++ charsOf ((ts.drop s.stop).map .trivia)) := by
      have hcut : (ts.drop s.start).take (s.stop - s.start) = cutFrom ts s := by
        rw [cutFrom, List.drop_take]
      rw [Document.charsOf_take_append_drop ts s.start,
        Document.charsOf_take_append_drop (ts.drop s.start) (s.stop - s.start), hcut, List.drop_drop,
        Nat.add_sub_cancel' hb.1]
    have hwidth : listWidth (ts.take s.stop) = listWidth (ts.take s.start) + listWidth (cutFrom ts s) := by
      rw [← listWidth_append, cutFrom, List.drop_take, ← List.take_add, Nat.add_sub_cancel' hb.1]
    have hhere : Text.replace? (offset + width (charsOf ((ts.take s.start).map .trivia))) [editIn offset ts s]
        (charsOf ((cutFrom ts s).map .trivia) ++ charsOf ((ts.drop s.stop).map .trivia)) =
          some (s.inserted ++ charsOf ((ts.drop s.stop).map .trivia)) := by
      refine Text.replace?_cons_eq_some_iff.2 ⟨[], _, _, _, rfl, ?_, ?_, rfl, rfl⟩
      · rw [Document.width_trivia]
        rfl
      · rw [Document.width_trivia, hwidth, Nat.add_assoc]
    rw [hedits] at hfront
    rw [List.reverse_cons, List.map_append, List.map_singleton, htext, Text.replace?_append hfront hhere,
      foldl_apply_cons (hclear.imp And.right) (fun t ht => (hin t (List.mem_cons_of_mem _ ht)).1)
        (Nat.le_trans hb.1 hb.2), List.map_append, List.map_append, Piece.charsOf_append, Piece.charsOf_append]
    rfl

end Splice

/-! ### Documents -/

namespace Splice

/-- The splices of one trivia list, the earliest place first. -/
def listed (ss : List Splice) (id : Nat) (slot : Slot) : List Splice :=
  (((ss.filter (·.token == id)).filter (·.slot == slot)).mergeSort laterFirst).reverse

/-- Splices in the order of the text, for the first `n` tokens. -/
def inOrder (n : Nat) (ss : List Splice) : List Splice :=
  (List.range n).flatMap fun id => listed ss id .leading ++ listed ss id .trailing

/-- In the order of the text: by the token, the side of the token and the place there. -/
def Before (s t : Splice) : Prop :=
  s.token < t.token ∨ s.token = t.token ∧
    (s.slot = .leading ∧ t.slot = .trailing ∨ s.slot = t.slot ∧ s.start < t.start)

variable {s : Splice} {ss : List Splice} {id : Nat} {slot : Slot}

theorem mem_listed : s ∈ listed ss id slot ↔ s ∈ ss ∧ s.token = id ∧ s.slot = slot := by
  rw [listed, List.mem_reverse, List.mem_mergeSort, List.mem_filter, List.mem_filter, beq_iff_eq, beq_iff_eq, and_assoc]

/-- Splices class by class. -/
theorem perm_flatMap_filter (ss : List Splice) (n : Nat) :
    ((List.range n).flatMap fun id => ss.filter (·.token == id)).Perm (ss.filter (·.token < n)) := by
  induction n with
  | zero =>
    rw [List.filter_eq_nil_iff.2 fun s _ => by rw [decide_eq_true_eq]; exact Nat.not_lt_zero _]
    exact .nil
  | succ n ih =>
    have hlow : (ss.filter (·.token < n + 1)).filter (·.token < n) = ss.filter (·.token < n) := by
      rw [List.filter_filter]
      refine List.filter_congr fun s _ => ?_
      rw [Bool.eq_iff_iff, Bool.and_eq_true, decide_eq_true_eq, decide_eq_true_eq]
      omega
    have hhigh : (ss.filter (·.token < n + 1)).filter (fun s => !decide (s.token < n)) = ss.filter (·.token == n) := by
      rw [List.filter_filter]
      refine List.filter_congr fun s _ => ?_
      rw [Bool.eq_iff_iff, Bool.and_eq_true, Bool.not_eq_true', decide_eq_false_iff_not, decide_eq_true_eq, beq_iff_eq]
      omega
    rw [List.range_succ, List.flatMap_append, List.flatMap_singleton, ← hhigh]
    refine (ih.append_right _).trans ?_
    rw [← hlow]
    exact List.filter_append_perm _ _

theorem perm_inOrder {n : Nat} (hss : ∀ s ∈ ss, s.token < n) : (inOrder n ss).Perm ss := by
  have hlisted : ∀ id slot, (listed ss id slot).Perm ((ss.filter (·.token == id)).filter (·.slot == slot)) :=
    fun _ _ => (List.reverse_perm _).trans (List.mergeSort_perm _ _)
  have htrailing : (fun s : Splice => s.slot == .trailing) = fun s => !(s.slot == .leading) := by
    funext s
    cases s.slot <;> rfl
  have hslots : ∀ id, (listed ss id .leading ++ listed ss id .trailing).Perm (ss.filter (·.token == id)) := by
    intro id
    refine ((hlisted id .leading).append (hlisted id .trailing)).trans ?_
    rw [htrailing]
    exact List.filter_append_perm _ _
  refine (List.Perm.flatMap_left _ fun id _ => hslots id).trans ((perm_flatMap_filter ss n).trans ?_)
  rw [List.filter_eq_self.2 fun s hs => decide_eq_true (hss s hs)]

theorem pairwise_inOrder {n : Nat}
    (hlisted : ∀ id < n, ∀ slot, (listed ss id slot).Pairwise fun s t => s.start < t.start) :
    (inOrder n ss).Pairwise Before := by
  have hslot : ∀ id < n, ∀ slot, (listed ss id slot).Pairwise Before := fun id hid slot =>
    (hlisted id hid slot).imp_of_mem fun {s t} hs ht hst => by
      obtain ⟨-, hs, hs'⟩ := mem_listed.1 hs
      obtain ⟨-, ht, ht'⟩ := mem_listed.1 ht
      exact .inr ⟨hs.trans ht.symm, .inr ⟨hs'.trans ht'.symm, hst⟩⟩
  refine List.pairwise_flatMap.2 ⟨fun id hid => ?_, List.pairwise_lt_range.imp fun {i j} hij s hs t ht => .inl ?_⟩
  · have hid := List.mem_range.1 hid
    refine List.pairwise_append.2 ⟨hslot id hid _, hslot id hid _, fun s hs t ht => ?_⟩
    obtain ⟨-, hs, hs'⟩ := mem_listed.1 hs
    obtain ⟨-, ht, ht'⟩ := mem_listed.1 ht
    exact .inr ⟨hs.trans ht.symm, .inl ⟨hs', ht'⟩⟩
  · have htoken : ∀ {k : Nat} {u : Splice}, u ∈ listed ss k .leading ++ listed ss k .trailing → u.token = k :=
      fun hu => (List.mem_append.1 hu).elim (fun hu => (mem_listed.1 hu).2.1) fun hu => (mem_listed.1 hu).2.1
    rwa [htoken hs, htoken ht]

end Splice

theorem Token.applyAll_of_splice {id : Nat} {t t' : Token} {ss : List Splice} (h : t.splice id ss = .ok t')
    (slot : Slot) : Splice.applyAll id (t.trivia slot) (ss.filter (·.slot == slot)) = .ok (t'.trivia slot) := by
  obtain ⟨-, leading, trailing, hl, ht, rfl⟩ := Token.splice_eq_ok_iff.1 h
  cases slot
  · exact hl
  · exact ht

theorem Token.charsOf_parts_eq (t : Token) : charsOf t.parts =
    charsOf (t.leading.map .trivia) ++ (t.text.toList ++ charsOf (t.trailing.map .trivia)) := by
  rw [Token.parts, Piece.charsOf_append, Piece.charsOf_append, Token.charsOf_own, List.append_assoc]

namespace Document

variable {d e : Document} {ss : List Splice} {id : Nat}

/-- The bytes that splices take away, each with what is put in for them. -/
def edits (d : Document) (ss : List Splice) : List (Span × List Char) := ss.map fun s => (d.spliceSpan s, s.inserted)

/-- The text of a trivia list with splices made. -/
theorem replace?_listed {slot : Slot} {ts' : List Trivia} (h : Splice.applyAll id ((d.token id).trivia slot)
    ((ss.filter (·.token == id)).filter (·.slot == slot)) = .ok ts') :
    Text.replace? (d.slotStart id slot) (d.edits (Splice.listed ss id slot))
      (charsOf (((d.token id).trivia slot).map .trivia)) = some (charsOf (ts'.map .trivia)) := by
  obtain ⟨hin, hapart, rfl⟩ := Splice.applyAll_eq_ok_iff.1 h
  have hedits : d.edits (Splice.listed ss id slot) = (Splice.listed ss id slot).map
      (Splice.editIn (d.slotStart id slot) ((d.token id).trivia slot)) := by
    refine List.map_congr_left fun s hs => ?_
    obtain ⟨-, rfl, rfl⟩ := Splice.mem_listed.1 hs
    rfl
  rw [hedits]
  exact Splice.replace?_foldl_apply _ (Splice.pairwise_later hin hapart) fun s hs => hin s (List.mem_mergeSort.1 hs)

/-- The text of a token with splices made. -/
theorem replace?_token {t : Token} (h : (d.token id).splice id (ss.filter (·.token == id)) = .ok t) :
    Text.replace? (d.fullStart id) (d.edits (Splice.listed ss id .leading ++ Splice.listed ss id .trailing))
      (charsOf (d.token id).parts) = some (charsOf t.parts) := by
  have hleading := replace?_listed (Token.applyAll_of_splice h .leading)
  have htrailing := replace?_listed (Token.applyAll_of_splice h .trailing)
  have hstop : d.slotStart id .trailing = d.fullStart id + width (charsOf ((d.token id).leading.map .trivia)) +
      width (d.token id).text.toList := by
    rw [width_trivia, ← Text.utf8ByteSize_eq_width]
    rfl
  rw [hstop] at htrailing
  rw [Token.charsOf_parts_eq, Token.charsOf_parts_eq, (Token.rewraps_of_splice h).text, edits, List.map_append]
  exact Text.replace?_append hleading (Text.replace?_append_left htrailing)

/-- **The text of a document with splices made** is its text with the bytes of each run replaced. -/
theorem replace?_splice (h : d.splice ss = .ok e) :
    Text.replace? 0 (d.edits (Splice.inOrder d.size ss)) d.text.toList = some e.text.toList := by
  obtain ⟨-, hsize, hmade⟩ := splice_eq_ok_iff.1 h
  have hfront : ∀ n ≤ d.size, Text.replace? 0 (d.edits (Splice.inOrder n ss))
      (charsOf (Token.partsOf (d.tokens.toList.take n))) = some (charsOf (Token.partsOf (e.tokens.toList.take n))) := by
    intro n
    induction n with
    | zero => exact fun _ => rfl
    | succ n ih =>
      intro hn
      have htoken := replace?_token (hmade n hn)
      rw [← Nat.zero_add (d.fullStart n), ← d.width_partsOf_take (Nat.le_of_lt hn)] at htoken
      have hall := Text.replace?_append (ih (Nat.le_of_lt hn)) htoken
      rw [edits, edits, ← List.map_append, ← Piece.charsOf_append, ← Piece.charsOf_append] at hall
      rw [d.take_succ_tokens hn, e.take_succ_tokens (by omega), Splice.inOrder, List.range_succ, List.flatMap_append,
        List.flatMap_singleton, Token.partsOf, Token.partsOf, List.flatMap_append, List.flatMap_append,
        List.flatMap_singleton, List.flatMap_singleton]
      exact hall
  have hall := hfront d.size (Nat.le_refl _)
  have hd : d.tokens.toList.take d.size = d.tokens.toList := List.take_of_length_le (Nat.le_refl _)
  have he : e.tokens.toList.take d.size = e.tokens.toList := List.take_of_length_le (Nat.le_of_eq hsize)
  rw [hd, he] at hall
  rw [← d.charsOf_parts, ← e.charsOf_parts]
  exact hall

/-- The document with splices made, told from the document as it was: the words are kept, every list has the run of each
of its splices replaced, and the text has the bytes of each run replaced. -/
structure Substitutes (d : Document) (ss : List Splice) (e : Document) : Prop where
  size : e.size = d.size
  word : ∀ id < d.size, (e.token id).kind = (d.token id).kind ∧ (e.token id).text = (d.token id).text ∧
    (e.token id).missing = (d.token id).missing
  list : ∀ id < d.size, ∀ slot, (e.token id).trivia slot =
    Splice.substitute ((ss.filter (·.token == id)).filter (·.slot == slot)) ((d.token id).trivia slot)
  kept : ∀ id < d.size, ∀ slot, (∀ s ∈ ss, s.token = id → s.slot ≠ slot) →
    (e.token id).trivia slot = (d.token id).trivia slot
  text : ∃ ordered : List Splice, ordered.Perm ss ∧ ordered.Pairwise Splice.Before ∧
    Text.replace? 0 (d.edits ordered) d.text.toList = some e.text.toList

theorem substitutes (h : d.splice ss = .ok e) : d.Substitutes ss e := by
  obtain ⟨hss, hsize, hmade⟩ := splice_eq_ok_iff.1 h
  refine ⟨hsize, fun id hid => ?_, fun id hid slot => ?_, fun id hid slot hnone => ?_, ?_⟩
  · have hrewraps := Token.rewraps_of_splice (hmade id hid)
    exact ⟨hrewraps.kind, hrewraps.text, hrewraps.missing⟩
  · exact Splice.applyAll_eq_substitute (Token.applyAll_of_splice (hmade id hid) slot)
  · exact Token.trivia_splice (hmade id hid) fun s hs =>
      hnone s (List.mem_of_mem_filter hs) (beq_iff_eq.1 (List.mem_filter.1 hs).2)
  · refine ⟨Splice.inOrder d.size ss, Splice.perm_inOrder hss, Splice.pairwise_inOrder fun id hid slot => ?_,
      replace?_splice h⟩
    obtain ⟨hin, hapart, -⟩ := Splice.applyAll_eq_ok_iff.1 (Token.applyAll_of_splice (hmade id hid) slot)
    exact List.pairwise_reverse.2 ((Splice.pairwise_later hin hapart).imp And.left)

/-- **Splices are made at once**, and the order in which they are given says nothing: what is made, or that nothing can
be made, is the same for each. -/
theorem substitutes_of_splice (d : Document) (ss : List Splice) : (∀ e, d.splice ss = .ok e → d.Substitutes ss e) ∧
    ∀ ss', ss.Perm ss' → (d.splice ss).toOption = (d.splice ss').toOption := by
  refine ⟨fun e => substitutes, fun ss' hp => ?_⟩
  cases h : d.splice ss with
  | ok e => rw [splice_perm hp h]
  | error cause =>
    cases h' : d.splice ss' with
    | ok e =>
      rw [splice_perm hp.symm h'] at h
      cases h
    | error cause' => rfl

/-- A run replaced, pieces put in behind it and another run taken away, all in one list; a line break in the next. -/
def mixed : List Splice :=
  [⟨0, .trailing, 2, 4, []⟩, ⟨1, .leading, 0, 0, [.endOfLine "\n"]⟩, ⟨0, .trailing, 0, 1, [.space]⟩,
    ⟨0, .trailing, 1, 1, [⟨.comment, "/*4*/"⟩, .space]⟩]

theorem substitutes_of_splice_mixed : ∃ d e, ofSource "a/*1*//*2*//*3*/ b" = .ok d ∧ d.splice mixed = .ok e ∧
    d.Substitutes mixed e ∧
    (e.token 0).trivia .trailing = [.space, ⟨.comment, "/*4*/"⟩, .space, ⟨.comment, "/*2*/"⟩] ∧
    (d.splice mixed.reverse).toOption = some e := by
  obtain ⟨d, hd, h⟩ := exists_ok_of_any (e := ofSource "a/*1*//*2*//*3*/ b") (p := fun d =>
    decide (∀ s ∈ mixed, s.token < d.size ∧ (d.token s.token).missing = false ∧
      s.InBounds ((d.token s.token).trivia s.slot)) && (decide (d.lengthAfter mixed ≤ maxBytes) &&
        decide ((d.token 0).trivia .trailing =
          [⟨.comment, "/*1*/"⟩, ⟨.comment, "/*2*/"⟩, ⟨.comment, "/*3*/"⟩, .space])))
    (by decide +kernel)
  simp only [Bool.and_eq_true, decide_eq_true_eq] at h
  obtain ⟨hss, hsize, htrailing⟩ := h
  obtain ⟨e, he, -⟩ := exists_splice_of_apart hss (by decide) hsize
  have hmade := (substitutes_of_splice d mixed).1 e he
  refine ⟨d, e, hd, he, hmade, ?_, ?_⟩
  · rw [hmade.list 0 d.size_pos .trailing, htrailing]
    decide
  · rw [← (substitutes_of_splice d mixed).2 _ (List.reverse_perm mixed).symm, he]
    rfl

end Document

end LayoutLint
