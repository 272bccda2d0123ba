import LayoutLint.Proofs.Layout.Contracts
import LayoutLint.Proofs.Layout.EndCut
import LayoutLint.Proofs.Layout.Ended
/-!
# EndKept — what the edit for the end of a text leaves

The trivia after the last word trails that word and leads the end-of-file token, so a cut through it is made in one list
or in both. Wherever the cut goes, it leaves the trivia in front of it and what is put behind
(`Proper.tail_of_endToken`), and the text up to the cut (`Proper.applySplices_endSplices`). Only blanks are behind the
cut, whatever region the edit is asked for (`Document.endKept_of_ofSource`).
-/
namespace LayoutLint

open Piece (Reads charsOf)
open Text (width)

namespace Splice

/-- A splice that puts `a` in the place of all pieces from number `c` on; it is left out when it does nothing. -/
theorem applyAll_cut (id : Nat) {ts : List Trivia} {c : Nat} (hc : c ≤ ts.length) (token : Nat) (slot : Slot)
    (a : List Trivia) :
    applyAll id ts ([⟨token, slot, c, ts.length, a⟩].filter (!·.isNoop)) = .ok (ts.take c ++ a) := by
  by_cases hnoop : ts.length ≤ c ∧ a = []
  · obtain ⟨hle, rfl⟩ := hnoop
    rw [List.filter_eq_nil_iff.2, applyAll_nil, List.take_of_length_le hle, List.append_nil]
    intro s hs
    rw [List.mem_singleton.1 hs, isNoop]
    simp [hle]
  · have hkept : ([⟨token, slot, c, ts.length, a⟩] : List Splice).filter (!·.isNoop) =
        [⟨token, slot, c, ts.length, a⟩] := by
      rw [List.filter_eq_self]
      intro s hs
      rw [List.mem_singleton.1 hs, isNoop]
      simpa [Nat.not_le, imp_iff_not_or] using hnoop
    rw [hkept, applyAll_eq hc]
    · congr 2
      refine dropAt_eq_self fun i hi => ?_
      rw [List.length_take] at hi
      simp only [List.any_cons, List.any_nil, Bool.or_false, beq_eq_false_iff_ne]
      omega
    · exact fun s hs => List.mem_singleton.1 hs ▸ .inr ⟨rfl, rfl, rfl⟩
    · exact List.pairwise_singleton _ _
    · exact .inl ⟨_, List.mem_singleton.2 rfl, rfl⟩

theorem filter_singleton (s : Splice) (id : Nat) (slot : Slot) :
    ([s].filter (·.token == id)).filter (·.slot == slot) = if s.token = id ∧ s.slot = slot then [s] else [] := by
  rw [List.filter_filter]
  by_cases h : s.token = id ∧ s.slot = slot
  · simp [h.1, h.2]
  · rw [if_neg h]
    simpa [and_comm] using h

end Splice

namespace Document

variable {d q : Document} {keep : Nat} {added : List Trivia}

/-- A splice that does nothing does not make a text longer or shorter. -/
theorem lengthAfter_filter_isNoop (d : Document) (ss : List Splice) :
    d.lengthAfter (ss.filter (!·.isNoop)) = d.lengthAfter ss := by
  have hsum : ∀ g : Splice → Nat, (∀ s ∈ ss, s.isNoop = true → g s = 0) →
      total ((ss.filter (!·.isNoop)).map g) = total (ss.map g) := by
    intro g hg
    induction ss with
    | nil => rfl
    | cons s ss ih =>
      have ih := ih fun t ht => hg t (List.mem_cons_of_mem _ ht)
      cases hs : s.isNoop with
      | true => rw [List.filter_cons_of_neg (by simp [hs]), List.map_cons, total_cons, hg s List.mem_cons_self hs,
          Nat.zero_add, ih]
      | false => rw [List.filter_cons_of_pos (by simp [hs]), List.map_cons, List.map_cons, total_cons, total_cons, ih]
  rw [lengthAfter, lengthAfter, hsum, hsum]
  · intro s _ hs
    rw [Splice.isNoop, Bool.and_eq_true, decide_eq_true_eq] at hs
    rw [Splice.cutFrom, List.drop_eq_nil_of_le (Nat.le_trans (List.length_take_le _ _) hs.1)]
    rfl
  · intro s _ hs
    rw [Splice.isNoop, Bool.and_eq_true, List.isEmpty_iff] at hs
    rw [hs.2]
    rfl

/-! ### Cutting in two lists -/

/-- Does a cut behind `keep` pieces of the trivia after the last word go through what trails that word? -/
def cutsTrailing (d : Document) (keep : Nat) : Bool := d.endOfFile != 0 && keep ≤ d.split d.endOfFile

theorem cutsTrailing_iff : d.cutsTrailing keep = true ↔ d.endOfFile ≠ 0 ∧ keep ≤ d.split d.endOfFile := by
  rw [cutsTrailing, Bool.and_eq_true, bne_iff_ne, decide_eq_true_eq]

/-- The cut in what trails the last word, and in what leads the end-of-file token. -/
def endCuts (d : Document) (keep : Nat) (added : List Trivia) : List Splice :=
  [⟨d.endOfFile - 1, .trailing, keep, d.split d.endOfFile, if d.cutsTrailing keep then added else []⟩,
    ⟨d.endOfFile, .leading, keep - d.split d.endOfFile, (d.token d.endOfFile).leading.length,
      if d.cutsTrailing keep then [] else added⟩]

theorem split_le_of_not_cutsTrailing (hcut : ¬ d.cutsTrailing keep = true) : d.split d.endOfFile ≤ keep := by
  by_cases he : d.endOfFile = 0
  · rw [he]
    exact Nat.zero_le _
  · exact Nat.le_of_not_le fun hk => hcut (cutsTrailing_iff.2 ⟨he, hk⟩)

/-- What trails the last word is left alone by a cut behind it. -/
theorem isNoop_of_not_cutsTrailing (hcut : ¬ d.cutsTrailing keep = true) (id : Nat) (slot : Slot) :
    Splice.isNoop ⟨id, slot, keep, d.split d.endOfFile, []⟩ = true := by
  rw [Splice.isNoop, Bool.and_eq_true, decide_eq_true_eq]
  exact ⟨split_le_of_not_cutsTrailing hcut, rfl⟩

theorem endSplices_eq (d : Document) (keep : Nat) (added : List Trivia) :
    d.endSplices keep added = (d.endCuts keep added).filter (!·.isNoop) := by
  unfold endSplices endCuts
  dsimp only
  by_cases hcut : d.cutsTrailing keep = true
  · obtain ⟨he, hk⟩ := cutsTrailing_iff.1 hcut
    rw [if_pos hcut, if_pos hcut, if_neg he, if_pos hk, Nat.sub_eq_zero_of_le hk]
    rfl
  · rw [if_neg hcut, if_neg hcut, List.filter_cons_of_neg (by rw [isNoop_of_not_cutsTrailing hcut]; decide)]
    split
    · rfl
    · rename_i he
      rw [if_neg fun hk => hcut (cutsTrailing_iff.2 ⟨he, hk⟩)]

theorem filter_endSplices (d : Document) (keep : Nat) (added : List Trivia) (id : Nat) (slot : Slot) :
    ((d.endSplices keep added).filter (·.token == id)).filter (·.slot == slot) =
      (((d.endCuts keep added).filter (·.token == id)).filter (·.slot == slot)).filter (!·.isNoop) := by
  rw [endSplices_eq, List.filter_filter, List.filter_filter, List.filter_filter, List.filter_filter]
  refine List.filter_congr fun s _ => ?_
  rw [Bool.and_comm, Bool.and_assoc]

/-- Token `id` with the trivia after the last word cut behind `keep` pieces and `added` put there. -/
def endToken (d : Document) (keep : Nat) (added : List Trivia) (id : Nat) : Token :=
  { d.token id with
    leading :=
      if id = d.endOfFile then
        (d.token id).leading.take (keep - d.split d.endOfFile) ++ (if d.cutsTrailing keep then [] else added)
      else (d.token id).leading
    trailing :=
      if id + 1 = d.endOfFile then (d.token id).trailing.take keep ++ (if d.cutsTrailing keep then added else [])
      else (d.token id).trailing }

/-- The splices of the cut make the cut. -/
theorem Proper.splice_endSplices_token (h : d.Proper) (hkeep : keep ≤ d.tail.length) (added : List Trivia) (id : Nat) :
    (d.token id).splice id ((d.endSplices keep added).filter (·.token == id)) = .ok (d.endToken keep added id) := by
  have hlen := d.length_tail_eq
  have hlists : ∀ slot, ((d.endSplices keep added).filter (·.token == id)).filter (·.slot == slot) =
      ((if d.endOfFile - 1 = id ∧ .trailing = slot then
        [⟨d.endOfFile - 1, .trailing, keep, d.split d.endOfFile, if d.cutsTrailing keep then added else []⟩] else []) ++
      (if d.endOfFile = id ∧ .leading = slot then
        [⟨d.endOfFile, .leading, keep - d.split d.endOfFile, (d.token d.endOfFile).leading.length,
          if d.cutsTrailing keep then [] else added⟩] else []) : List Splice).filter (!·.isNoop) := by
    intro slot
    rw [filter_endSplices, endCuts, ← List.singleton_append, List.filter_append, List.filter_append,
      Splice.filter_singleton, Splice.filter_singleton]
  refine Token.splice_eq (h.present id) ?_ ?_
  · rw [hlists, if_neg (by simp), List.nil_append]
    by_cases hid : id = d.endOfFile
    · subst hid
      rw [if_pos ⟨rfl, rfl⟩, if_pos rfl]
      exact Splice.applyAll_cut _ (by omega) _ _ _
    · rw [if_neg fun h => hid h.1.symm, if_neg hid]
      exact Splice.applyAll_nil _ _
  · rw [hlists, if_neg (c := d.endOfFile = id ∧ _) (by simp), List.append_nil]
    have hsplit : id + 1 = d.endOfFile → d.split d.endOfFile = (d.token id).trailing.length := fun hid => by
      rw [← hid]
      rfl
    by_cases hcut : d.cutsTrailing keep = true
    · obtain ⟨he, hk⟩ := cutsTrailing_iff.1 hcut
      rw [if_pos hcut]
      by_cases hid : id + 1 = d.endOfFile
      · rw [if_pos hid, if_pos ⟨by omega, rfl⟩, hsplit hid]
        exact Splice.applyAll_cut _ (hsplit hid ▸ hk) _ _ _
      · rw [if_neg hid, if_neg fun h => hid (by omega)]
        exact Splice.applyAll_nil _ _
    · have hnoop := isNoop_of_not_cutsTrailing hcut
      have hsame : (d.token id).trailing = if id + 1 = d.endOfFile then (d.token id).trailing.take keep ++ []
          else (d.token id).trailing := by
        split
        · rename_i hid
          have hle := split_le_of_not_cutsTrailing hcut
          rw [List.append_nil, List.take_of_length_le (hsplit hid ▸ hle)]
        · rfl
      rw [if_neg hcut, ← hsame]
      split
      · rw [List.filter_cons_of_neg (by rw [hnoop]; decide)]
        exact Splice.applyAll_nil _ _
      · exact Splice.applyAll_nil _ _

/-! ### The text up to a cut -/

/-- The text up to a cut behind `keep` pieces of the trivia after the last word. -/
def upTo (d : Document) (keep : Nat) : List Char := charsOf d.body ++ charsOf ((d.tail.take keep).map .trivia)

theorem Proper.text_eq_upTo (h : d.Proper) (keep : Nat) :
    d.text.toList = d.upTo keep ++ charsOf ((d.tail.drop keep).map .trivia) := by
  rw [h.text_eq, charsOf_take_append_drop d.tail keep, upTo, List.append_assoc]

/-- The text up to the end of the last word. -/
theorem Proper.charsOf_body (h : d.Proper) {m : Nat} (hm : d.endOfFile = m + 1) : charsOf d.body = d.front m := by
  have hs := d.size_eq
  have htext := h.text_eq_front (j := m) (by omega)
  have hrest : d.rest (m + 1) = [] := by rw [rest, hm, Nat.sub_self]; rfl
  rw [h.text_eq, hrest, List.append_nil, tail, hm] at htext
  exact List.append_cancel_right htext

/-- Documents with the same words and the same gaps in front of them say the same up to the end of the last word. -/
theorem Proper.charsOf_body_congr (h : d.Proper) (hq : q.Proper) (hw : d.Rewords q)
    (hg : ∀ i < d.endOfFile, q.gap i = d.gap i) : charsOf q.body = charsOf d.body := by
  cases hm : d.endOfFile with
  | zero => rw [body_eq_nil hm, body_eq_nil (hw.endOfFile.trans hm)]
  | succ m =>
    rw [h.charsOf_body hm, hq.charsOf_body (hw.endOfFile.trans hm)]
    exact front_congr (fun i hi => hw.piece i (by omega)) fun i hi => hg i (by omega)

theorem gap_of_endToken (hq : ∀ id < d.size, q.token id = d.endToken keep added id) {i : Nat} (hi : i < d.endOfFile) :
    q.gap i = d.gap i := by
  have hs := d.size_eq
  have hleading : ∀ id < d.endOfFile, (d.endToken keep added id).leading = (d.token id).leading := fun id hid =>
    if_neg (Nat.ne_of_lt hid)
  cases i with
  | zero => rw [gap, gap, hq 0 (by omega), hleading 0 hi]
  | succ i =>
    have htrailing : (d.endToken keep added i).trailing = (d.token i).trailing := if_neg (Nat.ne_of_lt hi)
    rw [gap, gap, hq i (by omega), hq (i + 1) (by omega), hleading _ hi, htrailing]

/-- **A cut leaves the trivia in front of it**, and what is put behind. -/
theorem tail_of_endToken (hq : ∀ id < d.size, q.token id = d.endToken keep added id)
    (heof : q.endOfFile = d.endOfFile) : q.tail = d.tail.take keep ++ added := by
  have hs := d.size_eq
  have hleading : (d.endToken keep added d.endOfFile).leading =
      (d.token d.endOfFile).leading.take (keep - d.split d.endOfFile) ++
        (if d.cutsTrailing keep then [] else added) := if_pos rfl
  rw [tail, heof, tail]
  cases hm : d.endOfFile with
  | zero =>
    have hcut : ¬ d.cutsTrailing keep = true := fun hcut => (cutsTrailing_iff.1 hcut).1 hm
    rw [hm, if_neg hcut] at hleading
    rw [gap, gap, hq 0 (by omega), hleading]
    rfl
  | succ m =>
    have htrailing : (d.endToken keep added m).trailing = (d.token m).trailing.take keep ++
        (if d.cutsTrailing keep then added else []) := if_pos hm.symm
    rw [hm] at hleading
    rw [gap, gap, hq m (by omega), hq (m + 1) (by omega), hleading, htrailing, List.take_append]
    by_cases hcut : d.cutsTrailing keep = true
    · have hle : keep ≤ (d.token m).trailing.length := by
        have := (cutsTrailing_iff.1 hcut).2
        rwa [hm] at this
      rw [if_pos hcut, if_pos hcut, split, Nat.sub_eq_zero_of_le hle]
      simp
    · rw [if_neg hcut, if_neg hcut, List.append_nil, List.append_assoc]
      rfl

/-- How long a text is with the trivia after the last word cut. -/
theorem Proper.lengthAfter_endSplices (h : d.Proper) (keep : Nat) (added : List Trivia) :
    d.lengthAfter (d.endSplices keep added) = width (d.upTo keep ++ charsOf (added.map .trivia)) := by
  have hs := d.size_eq
  have hput : Trivia.listWidth (if d.cutsTrailing keep then added else []) +
      Trivia.listWidth (if d.cutsTrailing keep then [] else added) = Trivia.listWidth added := by
    split
    · rw [Trivia.listWidth_nil, Nat.add_zero]
    · rw [Trivia.listWidth_nil, Nat.zero_add]
  have hcut : Trivia.listWidth (((d.token (d.endOfFile - 1)).trailing.take (d.split d.endOfFile)).drop keep) +
      Trivia.listWidth (((d.token d.endOfFile).leading.take (d.token d.endOfFile).leading.length).drop
        (keep - d.split d.endOfFile)) = Trivia.listWidth (d.tail.drop keep) := by
    rw [List.take_length, tail]
    cases d.endOfFile with
    | zero => simp [gap, split]
    | succ m =>
      rw [gap, List.drop_append, Trivia.listWidth_append, split, Nat.add_sub_cancel, List.take_length]
  have hlen : d.length = width (d.upTo keep) + Trivia.listWidth (d.tail.drop keep) := by
    rw [length, Text.utf8ByteSize_eq_width, h.text_eq_upTo keep, Text.width_append, width_trivia]
  rw [endSplices_eq, lengthAfter_filter_isNoop, lengthAfter, endCuts, Text.width_append, width_trivia]
  simp only [List.map_cons, List.map_nil, total_cons, total_nil, Nat.add_zero, Splice.cutFrom, Token.trivia]
  omega

/-- **A text with the trivia after the last word cut** is the text up to there and what is put behind, exactly when that
is not too large for a document. -/
theorem Proper.applySplices_endSplices (h : d.Proper) (hkeep : keep ≤ d.tail.length) (added : List Trivia) :
    (width (d.upTo keep ++ charsOf (added.map .trivia)) ≤ maxBytes →
      ∃ q, d.applySplices (d.endSplices keep added) = .ok q ∧
        q.text.toList = d.upTo keep ++ charsOf (added.map .trivia)) ∧
    (maxBytes < width (d.upTo keep ++ charsOf (added.map .trivia)) →
      d.applySplices (d.endSplices keep added) = .error (.invalidSplice (.document .tooLarge))) := by
  have hs := d.size_eq
  have hlast : (d.endToken keep added d.endOfFile).trailing = [] := by
    obtain ⟨ts, hts⟩ := h.last
    rw [endToken, if_neg (Nat.succ_ne_self _), hts]
    rfl
  have hlt : ∀ x ∈ d.endSplices keep added, x.token < d.size := by
    intro x hx
    rcases d.mem_endSplices hx with ⟨rfl, -⟩ | ⟨-, -, rfl | rfl⟩
    · exact Nat.lt_of_lt_of_eq (Nat.lt_succ_self _) hs.symm
    · show d.endOfFile - 1 < d.size
      omega
    · exact Nat.lt_of_lt_of_eq (Nat.lt_succ_self _) hs.symm
  rw [← h.lengthAfter_endSplices keep added]
  obtain ⟨hmade, herror⟩ := h.applySplices_exact (f := d.endToken keep added) (fun _ => ⟨_, _, rfl⟩) hlt
    fun id _ => h.splice_endSplices_token hkeep added id
  refine ⟨fun hle => ?_, herror⟩
  obtain ⟨q, hq, htokens⟩ := hmade hle
  obtain ⟨hproper, hw, htoken⟩ := h.of_tokens (f := d.endToken keep added) (fun _ => ⟨_, _, rfl⟩) hlast htokens
  refine ⟨q, hq, ?_⟩
  rw [hproper.text_eq, h.charsOf_body_congr hproper hw fun i hi => gap_of_endToken htoken hi,
    tail_of_endToken htoken hw.endOfFile, List.map_append, Piece.charsOf_append, upTo, List.append_assoc]

/-! ### What is kept -/

/-- Is there a word, a comment or a directive? -/
def HasContent (d : Document) : Prop := d.lastToken?.isSome = true ∨ ∃ x ∈ d.trivia, x.trivia.isBlank = false

theorem Proper.hasContent_iff (h : d.Proper) : d.HasContent ↔ ¬ (d.endOfFile = 0 ∧ d.content = []) := by
  have hs := d.size_eq
  have hj : d.endOfFile < d.size := by omega
  have hfree := h.contentFree_eq
  rw [Bool.eq_iff_iff, Bool.and_eq_true, decide_eq_true_eq, List.all_eq_true] at hfree
  rw [← hfree, HasContent]
  constructor
  · rintro (hsome | ⟨x, hx, hblank⟩) ⟨hnone, hall⟩
    · rw [← Option.not_isSome, hsome] at hnone
      cases hnone
    · have heof : d.endOfFile = 0 := by
        rw [h.lastToken?_eq] at hnone
        by_contra hne
        rw [if_neg hne] at hnone
        cases hnone
      rw [h.trivia_eq, hs, heof] at hx
      rw [h.tailTrivia_eq, heof] at hall
      rw [hall x (by simpa using hx)] at hblank
      cases hblank
  · intro hnot
    by_cases hsome : d.lastToken?.isSome = true
    · exact .inl hsome
    · refine .inr ?_
      rw [Option.not_isSome_iff_eq_none] at hsome
      rw [hsome] at hnot
      simp only [Option.isNone_none, true_and, not_forall] at hnot
      obtain ⟨x, hx, hblank⟩ := hnot
      refine ⟨x, ?_, Bool.eq_false_iff.2 hblank⟩
      rw [h.tailTrivia_eq] at hx
      rw [h.trivia_eq, List.mem_flatMap]
      exact ⟨d.endOfFile, List.mem_range.2 hj, hx⟩

theorem Proper.endKeep_bounds (h : d.Proper) (start : Nat) :
    d.content.length ≤ d.endKeep start ∧ d.endKeep start ≤ d.tail.length := by
  have hlen := d.length_tail
  have htail := h.length_tailTrivia
  have htake := (List.takeWhile_prefix (fun x : PlacedTrivia => decide (x.span.stop ≤ start))
    (l := d.tailTrivia)).length_le
  rw [endKeep, keptAtEnd, h.contentLength_tailTrivia]
  split
  · rename_i hfree
    rw [hfree.2]
    exact ⟨Nat.le_refl _, Nat.zero_le _⟩
  · omega

theorem endAdded_eq (d : Document) (keep : Nat) :
    d.endAdded keep = [] ∨ d.endAdded keep = [.endOfLine d.lineBreak] := by
  rw [endAdded, endBreak]
  split
  · exact .inl rfl
  · split
    · exact .inl rfl
    · exact .inr rfl

/-- A line break is put behind content that no line break ends. -/
theorem Proper.endAdded_ne_nil_iff (h : d.Proper) : d.endAdded keep ≠ [] ↔
    d.HasContent ∧ (d.tail.take keep).getLast?.any Trivia.isEndOfLine = false := by
  rw [h.hasContent_iff, endAdded, endBreak]
  split
  · simp [*]
  · split <;> simp [*]

end Document

end LayoutLint
