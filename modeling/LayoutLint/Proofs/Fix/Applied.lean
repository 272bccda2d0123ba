import LayoutLint.Proofs.Fix.Plan
import LayoutLint.Proofs.Layout.Lengths
import LayoutLint.Proofs.Layout.Weave
/-!
# Applied — the document that edits made together leave

Each gap is left as its plan says (`Document.left`), and every word is left as it is. The edits can be made, unless the
outcome is too large for a document (`Batch.applyEdits`); so edits for the violations of one text can be made together
whenever their regions allow it (`applyEdits_of_clear`).
-/
namespace LayoutLint

namespace Document

variable {d : Document}

/-- Do the edits take away piece `i` of the gap in front of token `j` by itself? -/
def takesRun (d : Document) (S : List Edit) (j i : Nat) : Bool :=
  (d.gap j)[i]?.any fun t => S.contains (d.runEdit j i t)

theorem takesRun_iff {S : List Edit} {j i : Nat} :
    d.takesRun S j i = true ↔ ∃ t, (d.gap j)[i]? = some t ∧ d.runEdit j i t ∈ S := by
  rw [takesRun]
  cases h : (d.gap j)[i]? with
  | none => simp
  | some t => simp

end Document

namespace Registry

variable {R : Registry} {c : RuleContext} {S : List Edit}

/-- The splices for one trivia list of a token. -/
def slotSplices (S : List Edit) (id : Nat) (slot : Slot) : List Splice :=
  ((S.flatMap (·.splices)).filter (·.token == id)).filter (·.slot == slot)

theorem mem_slotSplices {id : Nat} {slot : Slot} {x : Splice} :
    x ∈ slotSplices S id slot ↔ (∃ e ∈ S, x ∈ e.splices) ∧ x.token = id ∧ x.slot = slot := by
  simp only [slotSplices, List.mem_filter, List.mem_flatMap, beq_iff_eq, and_assoc]

variable {j keep : Nat} {added : List Trivia}

/-- The splices for what trails a token: those that take a run away, and the one that its plan asks for. -/
theorem Plan.cases_trailing (h : R.Plan c S (j + 1) keep added) (hS : R.Batch c S) (hd : c.document.Parsed)
    (ht : SyntaxTree.ofDocument? c.document = some c.tree) {x : Splice} (hx : x ∈ slotSplices S j .trailing) :
    (∃ i t, (c.document.gap (j + 1))[i]? = some t ∧ x = ⟨j, .trailing, i, i + 1, []⟩ ∧
      c.document.runEdit (j + 1) i t ∈ S ∧ i < keep ∧ i < c.document.split (j + 1)) ∨
    (keep ≤ c.document.split (j + 1) ∧ x = ⟨j, .trailing, keep, c.document.split (j + 1), added⟩) := by
  obtain ⟨⟨e, he, hxe⟩, htok, hslot⟩ := mem_slotSplices.1 hx
  have hspot : (c.document.spot x).1 = j + 1 := by rw [Document.spot, hslot, htok]
  rcases h.splice hS hd ht he hxe hspot with ⟨i, t, hpiece, rfl, hrun, hi⟩ | ⟨rfl, -⟩ | ⟨-, hk, rfl | rfl⟩
  · rw [Document.removal_eq] at hslot ⊢
    split at hslot
    · rename_i hlt
      rw [if_pos hlt]
      exact .inl ⟨i, t, hpiece, rfl, hrun, hi, hlt⟩
    · cases hslot
  · cases hslot
  · exact .inr ⟨hk, rfl⟩
  · cases hslot

/-- The splices take away what the edits take away of the part that is kept. -/
theorem Plan.any_trailing (h : R.Plan c S (j + 1) keep added) (hS : R.Batch c S) (hd : c.document.Parsed)
    (ht : SyntaxTree.ofDocument? c.document = some c.tree) {i : Nat} (hi : i < keep)
    (hsplit : i < c.document.split (j + 1)) :
    (slotSplices S j .trailing).any (·.start == i) = c.document.takesRun S (j + 1) i := by
  rw [Bool.eq_iff_iff, List.any_eq_true, Document.takesRun_iff]
  constructor
  · rintro ⟨x, hmem, hstart⟩
    rw [beq_iff_eq] at hstart
    rcases h.cases_trailing hS hd ht hmem with ⟨i', t, hpiece, rfl, hrun, -⟩ | ⟨-, rfl⟩
    · obtain rfl : i' = i := hstart
      exact ⟨t, hpiece, hrun⟩
    · exact absurd hstart (Nat.ne_of_gt hi)
  · rintro ⟨t, hpiece, hrun⟩
    refine ⟨⟨j, .trailing, i, i + 1, []⟩, mem_slotSplices.2 ⟨⟨_, hrun, ?_⟩, rfl, rfl⟩, beq_self_eq_true _⟩
    have hrem := c.document.removal_eq (j + 1) i t
    rw [if_pos hsplit] at hrem
    exact List.mem_singleton.2 hrem.symm

/-- What trails a token after the splices for it. -/
theorem Plan.applyAll_trailing (h : R.Plan c S (j + 1) keep added) (hS : R.Batch c S) (hd : c.document.Parsed)
    (ht : SyntaxTree.ofDocument? c.document = some c.tree) :
    Splice.applyAll j (c.document.token j).trailing (slotSplices S j .trailing) =
      .ok (dropAt (c.document.takesRun S (j + 1)) ((c.document.token j).trailing.take keep) ++
        if keep ≤ c.document.split (j + 1) then added else []) := by
  have hlen : (c.document.token j).trailing.length = c.document.split (j + 1) := rfl
  by_cases hk : keep ≤ c.document.split (j + 1)
  · rw [if_pos hk, Splice.applyAll_eq (c := keep) (a := added) hk]
    · congr 2
      exact dropAt_congr fun i hi => h.any_trailing hS hd ht (by rw [List.length_take] at hi; omega)
        (by rw [List.length_take] at hi; omega)
    · intro x hmem
      rcases h.cases_trailing hS hd ht hmem with ⟨i, t, -, rfl, -, hi, -⟩ | ⟨-, rfl⟩
      · exact .inl ⟨⟨rfl, rfl⟩, hi⟩
      · exact .inr ⟨rfl, rfl, rfl⟩
    · exact hS.pairwise_splices hd ht j .trailing
    · rcases h.exists_trailing hd hk with ⟨e, he, hmem⟩ | ⟨heq, hnil⟩
      · exact .inl ⟨_, mem_slotSplices.2 ⟨⟨e, he, hmem⟩, rfl, rfl⟩, rfl⟩
      · exact .inr ⟨heq, hnil⟩
  · rw [if_neg hk, Splice.applyAll_eq (c := c.document.split (j + 1)) (a := []) (Nat.le_refl _)]
    · have htake : (c.document.token j).trailing.take keep = (c.document.token j).trailing :=
        List.take_of_length_le (by omega)
      rw [htake, show (c.document.token j).trailing.take (c.document.split (j + 1)) = _ from List.take_length]
      congr 2
      exact dropAt_congr fun i hi => h.any_trailing hS hd ht (by omega) hi
    · intro x hmem
      rcases h.cases_trailing hS hd ht hmem with ⟨i, t, -, rfl, -, -, hi⟩ | ⟨hk', -⟩
      · exact .inl ⟨⟨rfl, rfl⟩, hi⟩
      · exact absurd hk' hk
    · exact hS.pairwise_splices hd ht j .trailing
    · exact .inr ⟨rfl, rfl⟩

/-- The splices for what leads a token: those that take a run away, the one that its plan asks for, and the one that
empties the list where the plan cuts in what trails the token before. -/
theorem Plan.cases_leading (h : R.Plan c S j keep added) (hS : R.Batch c S) (hd : c.document.Parsed)
    (ht : SyntaxTree.ofDocument? c.document = some c.tree) {x : Splice} (hx : x ∈ slotSplices S j .leading) :
    (∃ i t, (c.document.gap j)[i]? = some t ∧
      x = ⟨j, .leading, i - c.document.split j, i - c.document.split j + 1, []⟩ ∧
      c.document.runEdit j i t ∈ S ∧ i < keep ∧ c.document.split j ≤ i) ∨
    ((j = 0 ∨ c.document.split j < keep) ∧
      x = ⟨j, .leading, keep - c.document.split j, (c.document.token j).leading.length, added⟩) ∨
    (j ≠ 0 ∧ keep ≤ c.document.split j ∧ x = Splice.replaceAll c.document j .leading []) := by
  obtain ⟨⟨e, he, hxe⟩, htok, hslot⟩ := mem_slotSplices.1 hx
  have hspot : (c.document.spot x).1 = j := by rw [Document.spot, hslot, htok]
  rcases h.splice hS hd ht he hxe hspot with ⟨i, t, hpiece, rfl, hrun, hi⟩ | ⟨rfl, hk⟩ | ⟨hne, hk, rfl | rfl⟩
  · rw [Document.removal_eq] at hslot ⊢
    split at hslot
    · cases hslot
    · rename_i hlt
      rw [if_neg hlt]
      exact .inl ⟨i, t, hpiece, rfl, hrun, hi, Nat.not_lt.1 hlt⟩
  · exact .inr (.inl ⟨hk, rfl⟩)
  · cases hslot
  · exact .inr (.inr ⟨hne, hk, rfl⟩)

theorem Plan.any_leading (h : R.Plan c S j keep added) (hS : R.Batch c S) (hd : c.document.Parsed)
    (ht : SyntaxTree.ofDocument? c.document = some c.tree) {i : Nat} (hi : i < keep - c.document.split j) :
    (slotSplices S j .leading).any (·.start == i) = c.document.takesRun S j (c.document.split j + i) := by
  rw [Bool.eq_iff_iff, List.any_eq_true, Document.takesRun_iff]
  constructor
  · rintro ⟨x, hmem, hstart⟩
    rw [beq_iff_eq] at hstart
    rcases h.cases_leading hS hd ht hmem with ⟨i', t, hpiece, rfl, hrun, -, hsplit⟩ | ⟨-, rfl⟩ | ⟨-, hk, rfl⟩
    · obtain rfl : c.document.split j + i = i' := by
        rw [← show i' - c.document.split j = i from hstart]
        omega
      exact ⟨t, hpiece, hrun⟩
    · exact absurd hstart (Nat.ne_of_gt hi)
    · omega
  · rintro ⟨t, hpiece, hrun⟩
    refine ⟨⟨j, .leading, i, i + 1, []⟩, mem_slotSplices.2 ⟨⟨_, hrun, ?_⟩, rfl, rfl⟩, beq_self_eq_true _⟩
    have hrem := c.document.removal_eq j (c.document.split j + i) t
    rw [if_neg (by omega), Nat.add_sub_cancel_left] at hrem
    exact List.mem_singleton.2 hrem.symm

/-- What leads a token after the splices for it. -/
theorem Plan.applyAll_leading (h : R.Plan c S j keep added) (hS : R.Batch c S) (hd : c.document.Parsed)
    (ht : SyntaxTree.ofDocument? c.document = some c.tree) :
    Splice.applyAll j (c.document.token j).leading (slotSplices S j .leading) =
      .ok (dropAt (fun i => c.document.takesRun S j (c.document.split j + i))
          ((c.document.token j).leading.take (keep - c.document.split j)) ++
        if j = 0 ∨ c.document.split j < keep then added else []) := by
  have hlen := c.document.length_gap j
  have hle := h.keep_le
  by_cases hk : j = 0 ∨ c.document.split j < keep
  · rw [if_pos hk, Splice.applyAll_eq (c := keep - c.document.split j) (a := added) (by omega)]
    · congr 2
      exact dropAt_congr fun i hi => h.any_leading hS hd ht (by rw [List.length_take] at hi; omega)
    · intro x hmem
      rcases h.cases_leading hS hd ht hmem with ⟨i, t, -, rfl, -, hi, hsplit⟩ | ⟨-, rfl⟩ | ⟨hne, hk', -⟩
      · refine .inl ⟨⟨rfl, rfl⟩, ?_⟩
        show i - c.document.split j < keep - c.document.split j
        omega
      · exact .inr ⟨rfl, rfl, rfl⟩
      · omega
    · exact hS.pairwise_splices hd ht j .leading
    · rcases h.exists_leading hk with ⟨e, he, hmem⟩ | ⟨heq, hnil⟩
      · exact .inl ⟨_, mem_slotSplices.2 ⟨⟨e, he, hmem⟩, rfl, rfl⟩, rfl⟩
      · exact .inr ⟨heq, hnil⟩
  · rw [not_or, Nat.not_lt] at hk
    rw [if_neg (by omega), Splice.applyAll_eq (c := 0) (a := []) (Nat.zero_le _), Nat.sub_eq_zero_of_le hk.2,
      List.take_zero]
    · rfl
    · intro x hmem
      rcases h.cases_leading hS hd ht hmem with ⟨i, t, -, rfl, -, hi, hsplit⟩ | ⟨hk', -⟩ | ⟨-, -, rfl⟩
      · omega
      · omega
      · exact .inr ⟨rfl, rfl, rfl⟩
    · exact hS.pairwise_splices hd ht j .leading
    · rcases h.exists_replace hk.1 hk.2 with ⟨e, he, hmem⟩ | hnil
      · exact .inl ⟨_, mem_slotSplices.2 ⟨⟨e, he, hmem⟩, rfl, rfl⟩, rfl⟩
      · exact .inr ⟨by rw [hnil]; rfl, rfl⟩

/-- Nothing is put behind the token that closes a document. -/
theorem Batch.slotSplices_endOfFile (hS : R.Batch c S) (hd : c.document.Parsed)
    (ht : SyntaxTree.ofDocument? c.document = some c.tree) : slotSplices S c.document.endOfFile .trailing = [] := by
  rw [List.eq_nil_iff_forall_not_mem]
  intro x hx
  obtain ⟨⟨e, he, hxe⟩, htok, hslot⟩ := mem_slotSplices.1 hx
  have hspot : (c.document.spot x).1 = c.document.endOfFile + 1 := by rw [Document.spot, hslot, htok]
  have hs := c.document.size_eq
  cases (hS.mends e he).splits hd ht hxe with
  | run _ hrun =>
    rw [Document.spot_removal] at hspot
    have := hrun.gap
    have hspot : _ = c.document.endOfFile + 1 := hspot
    omega
  | trailing _ hlt _ => exact absurd (Nat.succ.inj hspot) (Nat.ne_of_lt (Nat.lt_of_succ_lt hlt))
  | leading _ hlt _ => exact absurd (Nat.succ.inj hspot) (Nat.ne_of_lt (Nat.lt_of_succ_lt hlt))
  | final _ _ _ hz =>
    have := (spot_of_mem_endSplices hz).1
    omega

theorem Mends.token_lt (hd : c.document.Parsed) (ht : SyntaxTree.ofDocument? c.document = some c.tree) {e : Edit}
    (h : R.Mends c e) {x : Splice} (hx : x ∈ e.splices) : x.token < c.document.size := by
  have hs := c.document.size_eq
  cases h.splits hd ht hx with
  | run _ hrun => exact c.document.removal_token_lt hrun.gap _ _
  | trailing _ hlt _ => exact Nat.lt_trans (Nat.lt_of_succ_lt hlt) (by omega)
  | leading _ hlt _ => exact Nat.lt_trans hlt (by omega)
  | final _ _ _ hz =>
    rcases Document.mem_endSplices hz with ⟨rfl, -⟩ | ⟨-, -, rfl | rfl⟩
    · show c.document.endOfFile < _
      omega
    · show c.document.endOfFile - 1 < _
      omega
    · show c.document.endOfFile < _
      omega

theorem Mends.splices_ne_nil (hd : c.document.Parsed) {e : Edit} (h : R.Mends c e) : e.splices ≠ [] := by
  cases h with
  | run => exact List.cons_ne_nil _ _
  | gap _ hbroken => exact Document.gapEdit_splices_ne_nil hbroken
  | final _ _ hcut => exact Document.endSplices_ne_nil (hcut.keep_lt_or hd.proper)

theorem Plan.congr (h : R.Plan c S j keep added) {S' : List Edit} (hp : ∀ e, e ∈ S ↔ e ∈ S') :
    R.Plan c S' j keep added := by
  cases h with
  | contract hw hlt hb hmem => exact .contract hw hlt hb ((hp _).1 hmem)
  | final hr hb hcut hmem => exact .final hr hb hcut ((hp _).1 hmem)
  | free hgap hfinal =>
    exact .free (fun k id i hj hw hb hmem => hgap k id i hj hw hb ((hp _).2 hmem))
      fun hj b keep added hr hb hcut hmem => hfinal hj b keep added hr hb hcut ((hp _).2 hmem)

end Registry

namespace Document

variable {d : Document}

theorem takesRun_congr {S S' : List Edit} (hp : ∀ e, e ∈ S ↔ e ∈ S') (j : Nat) : d.takesRun S j = d.takesRun S' j := by
  funext i
  rw [Bool.eq_iff_iff, takesRun_iff, takesRun_iff]
  simp only [hp]

/-- What is left of a gap of which `keep` pieces are kept and that `added` is put behind. -/
def left (d : Document) (S : List Edit) (j keep : Nat) (added : List Trivia) : List Trivia :=
  dropAt (d.takesRun S j) ((d.gap j).take keep) ++ added

end Document

namespace Registry

variable {R : Registry} {c : RuleContext} {S : List Edit}

/-- A token after edits made together. -/
def tokenAfter (d : Document) (S : List Edit) (keep : Nat → Nat) (added : Nat → List Trivia) (id : Nat) : Token :=
  { d.token id with
    leading := dropAt (fun i => d.takesRun S id (d.split id + i)) ((d.token id).leading.take (keep id - d.split id)) ++
      if id = 0 ∨ d.split id < keep id then added id else []
    trailing :=
      if id = d.endOfFile then (d.token id).trailing
      else dropAt (d.takesRun S (id + 1)) ((d.token id).trailing.take (keep (id + 1))) ++
        if keep (id + 1) ≤ d.split (id + 1) then added (id + 1) else [] }

/-- The gap between two tokens after edits made together. -/
theorem gap_tokenAfter {d : Document} {keep : Nat → Nat} {added : Nat → List Trivia} {j : Nat} (hj : j < d.endOfFile) :
    (tokenAfter d S keep added j).trailing ++ (tokenAfter d S keep added (j + 1)).leading =
      d.left S (j + 1) (keep (j + 1)) (added (j + 1)) := by
  have hlen : (d.token j).trailing.length = d.split (j + 1) := rfl
  have hgap : d.gap (j + 1) = (d.token j).trailing ++ (d.token (j + 1)).leading := rfl
  simp only [tokenAfter, if_neg (Nat.ne_of_lt hj), Nat.succ_ne_zero, false_or]
  rw [Document.left, hgap, List.take_append, hlen]
  by_cases hk : keep (j + 1) ≤ d.split (j + 1)
  · rw [if_pos hk, if_neg (Nat.not_lt.2 hk), Nat.sub_eq_zero_of_le hk, List.take_zero, List.append_nil, List.append_nil]
    exact List.append_nil _
  · have htake : (d.token j).trailing.take (keep (j + 1)) = (d.token j).trailing := List.take_of_length_le (by omega)
    rw [if_neg hk, if_pos (Nat.not_le.1 hk), htake, List.append_nil, dropAt_append, List.append_assoc, hlen]

/-- The gap in front of the first token after edits made together. -/
theorem leading_tokenAfter_zero {d : Document} {keep : Nat → Nat} {added : Nat → List Trivia} :
    (tokenAfter d S keep added 0).leading = d.left S 0 (keep 0) (added 0) := by
  have h0 : d.split 0 = 0 := rfl
  simp only [tokenAfter, true_or, if_true, h0, Nat.zero_add, Nat.sub_zero]
  rfl

/-- A token with the splices of a batch made. -/
theorem Batch.splice_token (hS : R.Batch c S) (hd : c.document.Parsed)
    (ht : SyntaxTree.ofDocument? c.document = some c.tree) {keep : Nat → Nat} {added : Nat → List Trivia}
    (hplan : ∀ j, R.Plan c S j (keep j) (added j)) (id : Nat) :
    (c.document.token id).splice id ((S.flatMap (·.splices)).filter (·.token == id)) =
      .ok (tokenAfter c.document S keep added id) := by
  have hl := (hplan id).applyAll_leading hS hd ht
  have ht' : Splice.applyAll id (c.document.token id).trailing (slotSplices S id .trailing) =
      .ok (tokenAfter c.document S keep added id).trailing := by
    by_cases he : id = c.document.endOfFile
    · simp only [tokenAfter, if_pos he]
      rw [he, hS.slotSplices_endOfFile hd ht]
      exact Splice.applyAll_nil _ _
    · simp only [tokenAfter, if_neg he]
      exact (hplan (id + 1)).applyAll_trailing hS hd ht
  exact Token.splice_eq (hd.proper.present id) hl ht'

/-- The document of the tokens after edits made together. -/
theorem proper_of_tokens {d e : Document} (hd : d.Proper) {keep : Nat → Nat} {added : Nat → List Trivia}
    (he : e.tokens.toList = (List.range d.size).map (tokenAfter d S keep added)) :
    e.Proper ∧ d.Rewords e ∧ ∀ j ≤ d.endOfFile, e.gap j = d.left S j (keep j) (added j) := by
  have hs := d.size_eq
  have hlast : (tokenAfter d S keep added d.endOfFile).trailing = [] := by
    obtain ⟨ts, hts⟩ := hd.last
    simp only [tokenAfter, if_true, hts]
    rfl
  obtain ⟨hproper, hrewords, htok⟩ := hd.of_tokens (f := tokenAfter d S keep added) (fun _ => ⟨_, _, rfl⟩) hlast he
  refine ⟨hproper, hrewords, fun j hj => ?_⟩
  cases j with
  | zero =>
    rw [Document.gap, htok 0 (by omega)]
    exact leading_tokenAfter_zero
  | succ j =>
    rw [Document.gap, htok j (by omega), htok (j + 1) (by omega)]
    exact gap_tokenAfter hj

theorem Batch.token_lt (hS : R.Batch c S) (hd : c.document.Parsed)
    (ht : SyntaxTree.ofDocument? c.document = some c.tree) :
    ∀ x ∈ S.flatMap (·.splices), x.token < c.document.size := by
  intro x hx
  obtain ⟨e, he, hx⟩ := List.mem_flatMap.1 hx
  exact (hS.mends e he).token_lt hd ht hx

/-- **The document that the splices of edits made together leave**, unless it is too large for one. -/
theorem Batch.splice (hS : R.Batch c S) (hd : c.document.Parsed)
    (ht : SyntaxTree.ofDocument? c.document = some c.tree) :
    (∃ e, c.document.splice (S.flatMap (·.splices)) = .ok e ∧
      e.length = c.document.lengthAfter (S.flatMap (·.splices)) ∧ e.Proper ∧ c.document.Rewords e ∧
      ∀ j ≤ c.document.endOfFile, ∃ keep added, R.Plan c S j keep added ∧
        e.gap j = c.document.left S j keep added) ∨
    (c.document.splice (S.flatMap (·.splices)) = .error (.document .tooLarge) ∧
      maxBytes < c.document.lengthAfter (S.flatMap (·.splices))) := by
  obtain ⟨keep, hplan⟩ := Classical.axiomOfChoice fun j => exists_plan R hd ht S j
  obtain ⟨added, hplan⟩ := Classical.axiomOfChoice hplan
  have htoken := hS.token_lt hd ht
  have hsplices := fun id (_ : id < c.document.size) => hS.splice_token hd ht hplan id
  rcases hd.proper.splice_cases (f := tokenAfter c.document S keep added) (fun _ => ⟨_, _, rfl⟩) htoken hsplices with
    ⟨e, he, htokens, hlength⟩ | hlarge
  · obtain ⟨hproper, hwords, hgap⟩ := proper_of_tokens hd.proper htokens
    exact .inl ⟨e, he, hlength, hproper, hwords, fun j hj => ⟨keep j, added j, hplan j, hgap j hj⟩⟩
  · exact .inr hlarge

/-- **The document that edits made together leave**, unless it is too large for one. -/
theorem Batch.applyEdits (hS : R.Batch c S) (hd : c.document.Parsed)
    (ht : SyntaxTree.ofDocument? c.document = some c.tree) (hne : S ≠ []) :
    (∃ o, c.document.applyEdits S = .ok o ∧ o.applied = S.mergeSort Edit.le ∧
      o.document.length = c.document.lengthAfter (S.flatMap (·.splices)) ∧ o.document.Proper ∧
      c.document.Rewords o.document ∧ ∀ j ≤ c.document.endOfFile, ∃ keep added, R.Plan c S j keep added ∧
        o.document.gap j = c.document.left S j keep added) ∨
    (c.document.applyEdits S = .error (.invalidSplice (.document .tooLarge)) ∧
      maxBytes < c.document.lengthAfter (S.flatMap (·.splices))) := by
  have hperm : (S.mergeSort Edit.le).reverse.Perm S := (List.reverse_perm _).trans (List.mergeSort_perm S Edit.le)
  have happly := @applyEdits_eq c.document S hS.clear hne fun e he => (hS.mends e he).splices_ne_nil hd
  generalize (S.mergeSort Edit.le).reverse = ordered at hperm happly
  have hmem : ∀ e, e ∈ ordered ↔ e ∈ S := fun e => hperm.mem_iff
  rw [happly, Document.applySplices, ← c.document.lengthAfter_perm (hperm.flatMap_right _)]
  rcases (hS.perm hperm.symm).splice hd ht with ⟨e, he, hlength, hproper, hwords, hgap⟩ | ⟨he, hlarge⟩
  · left
    rw [he]
    refine ⟨{ document := e, applied := S.mergeSort Edit.le }, rfl, rfl, hlength, hproper, hwords, fun j hj => ?_⟩
    obtain ⟨keep, added, hplan, hleft⟩ := hgap j hj
    refine ⟨keep, added, hplan.congr hmem, hleft.trans ?_⟩
    rw [Document.left, Document.left, Document.takesRun_congr hmem]
  · right
    rw [he]
    exact ⟨rfl, hlarge⟩

/-- **Edits for the violations of a text of which no two exclude one another can be made together**, unless the outcome
would be too long. -/
theorem applyEdits_of_clear (hR : R.Builtin) {s : String} {p : Program} (hp : Program.parse s = .ok p)
    {options : AnalyzerOptions} {cancelled : Bool} {vs : List Violation}
    (hvs : R.analyze { document := p.document, tree := p.tree, options, cancelled } = .ok vs) {E : List Edit}
    (hE : E.Sublist (vs.filterMap (R.editFor? p.document)))
    (hclear : E.Pairwise fun e f => e.conflictsWith f = false)
    (hsize : p.document.lengthAfter (E.flatMap (·.splices)) ≤ maxBytes) :
    ∃ o, p.document.applyEdits E = .ok o ∧ o.applied.Perm E ∧ o.applied.Pairwise (fun e f => e.le f = true) ∧
      o.document.length = p.document.lengthAfter (E.flatMap (·.splices)) := by
  obtain ⟨-, hdoc, htree⟩ := Program.parse_eq_ok_iff.1 hp
  obtain ⟨hd, -⟩ := Document.parsed_of_ofSource hdoc
  by_cases hne : E = []
  · subst hne
    exact ⟨{ document := p.document, applied := [] }, by simp [Document.applyEdits, firstConflict?], .refl _, .nil,
      by simp [Document.lengthAfter]⟩
  · let c : RuleContext := { document := p.document, tree := p.tree, options, cancelled }
    have hS : R.Batch c E := ⟨fun e he => mends_of_mem_edits (c := c) hR hd htree hvs (hE.subset he), hclear⟩
    rcases hS.applyEdits hd htree hne with ⟨o, ho, happlied, hlength, -⟩ | ⟨-, hlarge⟩
    · exact ⟨o, ho, happlied ▸ List.mergeSort_perm E Edit.le, happlied ▸ pairwise_mergeSort_le E, hlength⟩
    · exact absurd hlarge (Nat.not_lt.2 hsize)

/-- A space in front of arguments and one at the end of a line, mended together. -/
theorem applyEdits_of_clear_call : ∃ p vs o, Program.parse "f (x) \n" = .ok p ∧
    builtin.analyze { document := p.document, tree := p.tree } = .ok vs ∧
    p.document.applyEdits (vs.filterMap (builtin.editFor? p.document)) = .ok o ∧ o.applied.length = 2 ∧
    o.document.length = 5 := by
  obtain ⟨p, hp, h⟩ := exists_ok_of_any (e := Program.parse "f (x) \n") (p := fun p =>
    (builtin.checkDocument { document := p.document, tree := p.tree }).toOption.any fun found =>
      let vs := builtin.checkNodes { document := p.document, tree := p.tree } ++ found
      let edits := vs.eraseReps.filterMap (builtin.editFor? p.document)
      decide (vs.Pairwise fun v w : Violation => v.le w = true) &&
        (decide (edits.Pairwise fun e f : Edit => e.conflictsWith f = false) &&
        (decide (edits.length = 2) && decide (p.document.lengthAfter (edits.flatMap (·.splices)) = 5))))
    (by decide +kernel)
  obtain ⟨found, hfound, h⟩ := exists_ok_of_any h
  simp only [Bool.and_eq_true, decide_eq_true_eq] at h
  obtain ⟨hle, hclear, htwo, hlength⟩ := h
  have hvs := analyze_of_pairwise (c := { document := p.document, tree := p.tree }) rfl hfound hle
  obtain ⟨o, ho, hperm, -, hlen⟩ :=
    applyEdits_of_clear builtin_builtin hp hvs (.refl _) hclear (by rw [hlength]; decide)
  exact ⟨p, _, o, hp, hvs, ho, hperm.length_eq.trans htwo, hlen.trans hlength⟩

end Registry

end LayoutLint
