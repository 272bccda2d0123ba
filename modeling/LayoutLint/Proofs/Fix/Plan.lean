import LayoutLint.Proofs.Fix.Conflicts
import LayoutLint.Proofs.Layout.Splices
/-!
# Plan — what edits made together do to a gap

Edits that are made together bring a gap in line with a contract, or mend the end of the text, or take white space away
(`Plan`). Each trivia list of a token is changed by the splices for its gap only, so the gap holds what the plan says
(`applyAll_trailing`, `applyAll_leading`).
-/
namespace LayoutLint

namespace Document

variable {d : Document}

/-- The gap that a splice is about, and where in the gap it starts. -/
def spot (d : Document) (x : Splice) : Nat × Nat :=
  match x.slot with
  | .leading => (x.token, d.split x.token + x.start)
  | .trailing => (x.token + 1, x.start)

theorem spot_congr {x y : Splice} (ht : x.token = y.token) (hs : x.slot = y.slot) (h : x.start = y.start) :
    d.spot x = d.spot y := by
  rw [spot, spot, ht, hs, h]

/-- The splice that takes a piece of a gap away. -/
def removal (d : Document) (j i : Nat) (t : Trivia) : Splice :=
  ⟨(d.placeAt j i t).token, (d.placeAt j i t).slot, (d.placeAt j i t).index, (d.placeAt j i t).index + 1, []⟩

theorem removal_eq (d : Document) (j i : Nat) (t : Trivia) : d.removal j i t =
    if i < d.split j then ⟨j - 1, .trailing, i, i + 1, []⟩
    else ⟨j, .leading, i - d.split j, i - d.split j + 1, []⟩ := by
  rw [removal]
  by_cases h : i < d.split j
  · simp only [placeAt, if_pos h]
  · simp only [placeAt, if_neg h]

theorem removal_token_lt (d : Document) {j : Nat} (hj : j < d.size) (i : Nat) (t : Trivia) :
    (d.removal j i t).token < d.size := by
  rw [removal_eq]
  split
  · exact Nat.lt_of_le_of_lt (Nat.sub_le _ _) hj
  · exact hj

theorem spot_removal (d : Document) (j i : Nat) (t : Trivia) : d.spot (d.removal j i t) = (j, i) := by
  rw [removal_eq]
  split
  · rename_i h
    cases j with
    | zero => exact absurd h (Nat.not_lt_zero _)
    | succ j => rfl
  · rename_i h
    show (j, d.split j + (i - d.split j)) = _
    rw [Nat.add_sub_cancel' (Nat.not_lt.1 h)]

end Document

namespace Registry

variable {R : Registry} {c : RuleContext} {S : List Edit}

/-- Edits that mend what is broken and can be made together. -/
structure Batch (R : Registry) (c : RuleContext) (S : List Edit) : Prop where
  mends : ∀ e ∈ S, R.Mends c e
  clear : AllClear S

/-- What a splice of an edit does. -/
inductive Splits (R : Registry) (c : RuleContext) : Edit → Splice → Prop
  | run {j i : Nat} {t : Trivia} : R.Has .noTrailingWhitespace → c.document.IsRun j i t →
    Splits R c (c.document.runEdit j i t) (c.document.removal j i t)
  | trailing {k : GapContract} {id : String} {j : Nat} : R.Wants c.tree k id j → j + 1 < c.document.endOfFile →
    c.document.gap (j + 1) ≠ k.trailing →
    Splits R c (c.document.gapEdit k id j) (Splice.replaceAll c.document j .trailing k.trailing)
  | leading {k : GapContract} {id : String} {j : Nat} : R.Wants c.tree k id j → j + 1 < c.document.endOfFile →
    c.document.gap (j + 1) ≠ k.trailing →
    Splits R c (c.document.gapEdit k id j) (Splice.replaceAll c.document (j + 1) .leading [])
  | final {b : FinalBreak} {keep : Nat} {added : List Trivia} {x : Splice} : R.Has .finalNewline →
    c.document.finalBreak? = some b → c.document.EndCut b keep added → x ∈ c.document.endSplices keep added →
    Splits R c (c.document.endEdit Rule.finalNewline.id b.span keep added) x

theorem Mends.splits (hd : c.document.Parsed) (ht : SyntaxTree.ofDocument? c.document = some c.tree) {e : Edit}
    (h : R.Mends c e) {x : Splice} (hx : x ∈ e.splices) : R.Splits c e x := by
  cases h with
  | run hr hrun =>
    obtain rfl := List.mem_singleton.1 hx
    exact .run hr hrun
  | gap hw hbroken =>
    have hlt := hw.lt hd ht
    rcases Document.mem_splices_gapEdit hx with rfl | rfl
    · exact .trailing hw hlt hbroken
    · exact .leading hw hlt hbroken
  | final hr hb hcut => exact .final hr hb hcut hx

/-- A splice for the end of the text starts behind what is kept. -/
theorem spot_of_mem_endSplices {d : Document} {keep : Nat} {added : List Trivia} {x : Splice}
    (hx : x ∈ d.endSplices keep added) : (d.spot x).1 = d.endOfFile ∧ keep ≤ (d.spot x).2 := by
  rcases d.mem_endSplices hx with ⟨rfl, hk⟩ | ⟨hne, hk, rfl | rfl⟩
  · refine ⟨rfl, ?_⟩
    show keep ≤ d.split d.endOfFile + (keep - d.split d.endOfFile)
    omega
  · refine ⟨?_, Nat.le_refl _⟩
    show d.endOfFile - 1 + 1 = _
    omega
  · exact ⟨rfl, hk⟩

/-- An edit that changes the gap in front of a word excludes the edit that brings the gap in line with a contract. -/
theorem Splits.conflictsWith_gapEdit (hd : c.document.Parsed) {e : Edit} {x : Splice} {j : Nat} (hx : R.Splits c e x)
    (hj : j + 1 < c.document.endOfFile) (hspot : (c.document.spot x).1 = j + 1) (k : GapContract) (id : String) :
    e.conflictsWith (c.document.gapEdit k id j) = true := by
  have hs := c.document.size_eq
  cases hx with
  | run _ hrun =>
    rw [Document.spot_removal] at hspot
    obtain rfl : _ = j + 1 := hspot
    exact hd.runEdit_conflictsWith_gapEdit (by omega) hrun.piece k id
  | trailing =>
    obtain rfl := Nat.succ.inj hspot
    exact c.document.gapEdit_conflictsWith_gapEdit (by omega) _ _ _ _
  | leading =>
    obtain rfl := Nat.succ.inj hspot
    exact c.document.gapEdit_conflictsWith_gapEdit (by omega) _ _ _ _
  | final _ _ _ hz =>
    have := (spot_of_mem_endSplices hz).1
    omega

/-- **Splices of two edits start at one place only when the edits exclude one another.** -/
theorem conflictsWith_of_spot_eq (hd : c.document.Parsed) {e f : Edit} {x y : Splice} (hx : R.Splits c e x)
    (hy : R.Splits c f y) (h : c.document.spot x = c.document.spot y) : e.conflictsWith f = true := by
  have hs := c.document.size_eq
  -- The edit for the end of the text and white space that it cuts.
  have hfinal : ∀ {j i : Nat} {t : Trivia} {b : FinalBreak} {keep : Nat} {added : List Trivia} {z : Splice},
      c.document.IsRun j i t → c.document.EndCut b keep added → z ∈ c.document.endSplices keep added →
      (j, i) = c.document.spot z →
      (c.document.runEdit j i t).conflictsWith (c.document.endEdit Rule.finalNewline.id b.span keep added) = true := by
    intro j i t b keep added z hrun hcut hz heq
    obtain ⟨h₁, h₂⟩ := spot_of_mem_endSplices hz
    rw [← heq] at h₁ h₂
    obtain ⟨n, hn, -, hstart, -⟩ := hcut.start
    obtain rfl : j = c.document.endOfFile := h₁
    exact (hd.runEdit_conflictsWith_endEdit hcut hstart hrun.piece).2 (Nat.le_trans hn h₂)
  cases hy with
  | trailing _ hj => exact hx.conflictsWith_gapEdit hd hj (by rw [h]; rfl) _ _
  | leading _ hj => exact hx.conflictsWith_gapEdit hd hj (by rw [h]; rfl) _ _
  | run hr hrun =>
    rw [Edit.conflictsWith_comm]
    have hy : R.Splits c _ _ := .run hr hrun
    cases hx with
    | trailing _ hj => exact hy.conflictsWith_gapEdit hd hj (by rw [← h]; rfl) _ _
    | leading _ hj => exact hy.conflictsWith_gapEdit hd hj (by rw [← h]; rfl) _ _
    | run _ hrun' =>
      rw [Document.spot_removal, Document.spot_removal, Prod.mk.injEq] at h
      obtain ⟨rfl, rfl⟩ := h
      obtain rfl := Option.some.inj (hrun.piece.symm.trans hrun'.piece)
      exact Edit.conflictsWith_of_span_eq rfl (Nat.le_add_right _ _)
    | final _ _ hcut hz => exact hfinal hrun hcut hz (by rw [h, Document.spot_removal])
  | final _ hb hcut hy =>
    cases hx with
    | trailing _ hj =>
      have := (spot_of_mem_endSplices hy).1
      rw [← h] at this
      exact absurd this (Nat.ne_of_lt hj)
    | leading _ hj =>
      have := (spot_of_mem_endSplices hy).1
      rw [← h] at this
      exact absurd this (Nat.ne_of_lt hj)
    | run _ hrun => exact hfinal hrun hcut hy (by rw [← h, Document.spot_removal])
    | final _ hb' hcut' _ =>
      obtain rfl := Option.some.inj (hb.symm.trans hb')
      exact Document.endEdit_conflictsWith_endEdit hd.proper hcut'

/-- The splices of one edit start at different places. -/
theorem Mends.pairwise_token {e : Edit} (h : R.Mends c e) : e.splices.Pairwise fun x y => x.token ≠ y.token := by
  cases h with
  | run => exact List.pairwise_singleton _ _
  | @gap k id j hw _ =>
    refine List.pairwise_append.2 ⟨?_, ?_, fun x hx y hy => ?_⟩
    · cases Splice.setList? c.document j .trailing k.trailing <;> simp
    · cases Splice.setList? c.document (j + 1) .leading [] <;> simp
    · rw [Splice.eq_of_mem_setList? hx, Splice.eq_of_mem_setList? hy]
      exact Nat.ne_of_lt (Nat.lt_succ_self j)
  | final =>
    unfold Document.endEdit Document.endSplices
    dsimp only
    refine List.Pairwise.filter _ ?_
    split
    · exact List.pairwise_singleton _ _
    · rename_i he
      split
      · rw [List.pairwise_pair]
        show c.document.endOfFile - 1 ≠ c.document.endOfFile
        omega
      · exact List.pairwise_singleton _ _

namespace Batch

/-- Edits in some other order. -/
theorem perm (h : R.Batch c S) {S' : List Edit} (hp : S.Perm S') : R.Batch c S' :=
  ⟨fun e he => h.mends e (hp.mem_iff.2 he), h.clear.perm hp⟩

/-- **No two splices of a batch start at one place.** -/
theorem pairwise_splices (h : R.Batch c S) (hd : c.document.Parsed)
    (ht : SyntaxTree.ofDocument? c.document = some c.tree) (id : Nat) (slot : Slot) :
    (((S.flatMap (·.splices)).filter (·.token == id)).filter (·.slot == slot)).Pairwise fun x y =>
      x.start ≠ y.start := by
  have hall : (S.flatMap (·.splices)).Pairwise fun x y => x.token = y.token → x.slot = y.slot → x.start ≠ y.start := by
    rw [List.pairwise_flatMap]
    refine ⟨fun e he => (h.mends e he).pairwise_token.imp fun hne heq => absurd heq hne, ?_⟩
    refine h.clear.imp_of_mem fun {e f} he hf hclear x hx y hy h₁ h₂ h₃ => ?_
    have hx := (h.mends e he).splits hd ht hx
    have hy := (h.mends f hf).splits hd ht hy
    rw [conflictsWith_of_spot_eq hd hx hy (Document.spot_congr h₁ h₂ h₃)] at hclear
    cases hclear
  exact Splice.pairwise_of_slot hall id slot

end Batch

/-- What edits made together do to the gap in front of token `j`: of its first `keep` pieces those stay that are not
taken away one by one, and `added` is put behind them. -/
inductive Plan (R : Registry) (c : RuleContext) (S : List Edit) : Nat → Nat → List Trivia → Prop
  | contract {k : GapContract} {id : String} {j : Nat} : R.Wants c.tree k id j → j + 1 < c.document.endOfFile →
    c.document.gap (j + 1) ≠ k.trailing → c.document.gapEdit k id j ∈ S → Plan R c S (j + 1) 0 k.trailing
  | final {b : FinalBreak} {keep : Nat} {added : List Trivia} : R.Has .finalNewline →
    c.document.finalBreak? = some b → c.document.EndCut b keep added →
    c.document.endEdit Rule.finalNewline.id b.span keep added ∈ S → Plan R c S c.document.endOfFile keep added
  | free {j : Nat} : (∀ k id i, j = i + 1 → R.Wants c.tree k id i → c.document.gap (i + 1) ≠ k.trailing →
      c.document.gapEdit k id i ∉ S) →
    (j = c.document.endOfFile → ∀ b keep added, R.Has .finalNewline → c.document.finalBreak? = some b →
      c.document.EndCut b keep added → c.document.endEdit Rule.finalNewline.id b.span keep added ∉ S) →
    Plan R c S j (c.document.gap j).length []

theorem exists_plan (R : Registry) (hd : c.document.Parsed) (ht : SyntaxTree.ofDocument? c.document = some c.tree)
    (S : List Edit) (j : Nat) : ∃ keep added, R.Plan c S j keep added := by
  by_cases hgap : ∃ k id i, j = i + 1 ∧ R.Wants c.tree k id i ∧ c.document.gap (i + 1) ≠ k.trailing ∧
      c.document.gapEdit k id i ∈ S
  · obtain ⟨k, id, i, rfl, hw, hb, he⟩ := hgap
    exact ⟨_, _, .contract hw (hw.lt hd ht) hb he⟩
  · by_cases hfinal : j = c.document.endOfFile ∧ ∃ b keep added, R.Has .finalNewline ∧
        c.document.finalBreak? = some b ∧ c.document.EndCut b keep added ∧
        c.document.endEdit Rule.finalNewline.id b.span keep added ∈ S
    · obtain ⟨rfl, b, keep, added, hr, hb, hcut, he⟩ := hfinal
      exact ⟨_, _, .final hr hb hcut he⟩
    · refine ⟨_, _, .free (fun k id i hj hw hb he => hgap ⟨k, id, i, hj, hw, hb, he⟩) ?_⟩
      exact fun hj b keep added hr hb hcut he => hfinal ⟨hj, b, keep, added, hr, hb, hcut, he⟩

/-- A splice that replaces what stands behind the first `keep` pieces of a gap. -/
def IsCut (d : Document) (j keep : Nat) (added : List Trivia) (x : Splice) : Prop :=
  (x = ⟨j, .leading, keep - d.split j, (d.token j).leading.length, added⟩ ∧ (j = 0 ∨ d.split j < keep)) ∨
  (j ≠ 0 ∧ keep ≤ d.split j ∧
    (x = ⟨j - 1, .trailing, keep, d.split j, added⟩ ∨ x = Splice.replaceAll d j .leading []))

namespace Plan

variable {j keep : Nat} {added : List Trivia}

theorem keep_le (h : R.Plan c S j keep added) : keep ≤ (c.document.gap j).length := by
  cases h with
  | contract => exact Nat.zero_le _
  | final _ _ hcut => exact hcut.keep_le
  | free => exact Nat.le_refl _

/-- **The splices for a gap**: they take away pieces that are kept by the plan otherwise, or make its cut. -/
theorem splice (h : R.Plan c S j keep added) (hS : R.Batch c S) (hd : c.document.Parsed)
    (ht : SyntaxTree.ofDocument? c.document = some c.tree) {e : Edit} (he : e ∈ S) {x : Splice} (hx : x ∈ e.splices)
    (hj : (c.document.spot x).1 = j) :
    (∃ i t, (c.document.gap j)[i]? = some t ∧ x = c.document.removal j i t ∧ c.document.runEdit j i t ∈ S ∧ i < keep) ∨
      IsCut c.document j keep added x := by
  have hs := c.document.size_eq
  have hsplits := (hS.mends e he).splits hd ht hx
  cases h with
  | @contract k id j hw hlt hb hmem =>
    -- Another edit for the gap would exclude that of the contract.
    have hsame := hS.clear.eq_of_conflictsWith he hmem (hsplits.conflictsWith_gapEdit hd hlt hj k id)
    exact .inr (.inr ⟨Nat.succ_ne_zero j, Nat.zero_le _, Document.mem_splices_gapEdit (hsame ▸ hx)⟩)
  | @final b keep added _ hb hcut hmem =>
    have hsame : e.conflictsWith (c.document.endEdit Rule.finalNewline.id b.span keep added) = true →
        x ∈ c.document.endSplices keep added := fun hconf => by
      have := hS.clear.eq_of_conflictsWith he hmem hconf ▸ hx
      exact this
    cases hsplits with
    | @run j' i t _ hrun =>
      rw [Document.spot_removal] at hj
      obtain rfl : j' = c.document.endOfFile := hj
      obtain ⟨n, hn, -, hstart, -⟩ := hcut.start
      have hiff := hd.runEdit_conflictsWith_endEdit (r := Rule.finalNewline.id) hcut hstart hrun.piece
      by_cases hni : n ≤ i
      · exact .inr (Document.mem_endSplices (hsame (hiff.2 hni)))
      · exact .inl ⟨i, t, hrun.piece, rfl, he, by omega⟩
    | trailing _ hlt => exact absurd hj (Nat.ne_of_lt hlt)
    | leading _ hlt => exact absurd hj (Nat.ne_of_lt hlt)
    | final _ hb' hcut' _ =>
      obtain rfl := Option.some.inj (hb.symm.trans hb')
      exact .inr (Document.mem_endSplices (hsame (Document.endEdit_conflictsWith_endEdit hd.proper hcut')))
  | free hgap hfinal =>
    cases hsplits with
    | @run j' i t _ hrun =>
      rw [Document.spot_removal] at hj
      obtain rfl : j' = j := hj
      exact .inl ⟨i, t, hrun.piece, rfl, he, (List.getElem?_eq_some_iff.1 hrun.piece).1⟩
    | trailing hw _ hb => exact absurd he (hgap _ _ _ hj.symm hw hb)
    | leading hw _ hb => exact absurd he (hgap _ _ _ hj.symm hw hb)
    | final hr hb hcut hz =>
      exact absurd he (hfinal (hj.symm.trans (spot_of_mem_endSplices hz).1) _ _ _ hr hb hcut)

/-- The splice that makes the cut in what trails a token, unless there is nothing to cut. -/
theorem exists_trailing (h : R.Plan c S (j + 1) keep added) (hd : c.document.Parsed)
    (hk : keep ≤ c.document.split (j + 1)) :
    (∃ e ∈ S, ⟨j, .trailing, keep, c.document.split (j + 1), added⟩ ∈ e.splices) ∨
      (keep = c.document.split (j + 1) ∧ added = []) := by
  generalize hi : j + 1 = i at h hk
  cases h with
  | @contract k id j' hw hlt hb hmem =>
    obtain rfl := Nat.succ.inj hi
    refine .inl ⟨_, hmem, List.mem_append_left _ ?_⟩
    have hne : (c.document.token j).trailing ≠ k.trailing := by
      intro heq
      have hlead := hd.leading_eq_nil (j := j) (by omega) (by
        rw [heq]
        cases k <;> simp [GapContract.trailing, Trivia.isEndOfLine, Trivia.space, Trivia.whitespace])
      exact hb (by rw [Document.gap, hlead, heq, List.append_nil])
    rw [Option.mem_toList, Splice.setList?, if_neg (show ¬ (c.document.token j).trivia .trailing = _ from hne)]
    rfl
  | final _ _ hcut hmem =>
    by_cases hdo : keep = c.document.split c.document.endOfFile ∧ added = []
    · exact .inr hdo
    · refine .inl ⟨_, hmem, ?_⟩
      show _ ∈ c.document.endSplices keep added
      unfold Document.endSplices
      dsimp only
      rw [if_neg (by omega), if_pos hk]
      refine Splice.mem_filter_isNoop (by rw [← hi]; exact List.mem_cons_self) ?_
      exact (Nat.lt_or_ge keep _).imp_right fun hge ha => hdo ⟨Nat.le_antisymm hk hge, ha⟩
  | free =>
    refine .inr ⟨?_, rfl⟩
    have : (c.document.gap i).length = c.document.split i + (c.document.token i).leading.length := by
      rw [← hi]
      exact List.length_append
    omega

/-- The splice that clears what leads a token when the cut is in front of it, unless nothing does. -/
theorem exists_replace (h : R.Plan c S j keep added) (hj : j ≠ 0) (hk : keep ≤ c.document.split j) :
    (∃ e ∈ S, Splice.replaceAll c.document j .leading [] ∈ e.splices) ∨ (c.document.token j).leading = [] := by
  cases h with
  | @contract k id j' hw hlt hb hmem =>
    by_cases hnil : (c.document.token (j' + 1)).leading = []
    · exact .inr hnil
    · refine .inl ⟨_, hmem, List.mem_append_right _ ?_⟩
      rw [Option.mem_toList, Splice.setList?, if_neg (show ¬ (c.document.token (j' + 1)).trivia .leading = _ from hnil)]
  | final _ _ hcut hmem =>
    by_cases hnil : (c.document.token c.document.endOfFile).leading = []
    · exact .inr hnil
    · refine .inl ⟨_, hmem, ?_⟩
      show _ ∈ c.document.endSplices keep added
      unfold Document.endSplices
      dsimp only
      rw [if_neg hj, if_pos hk]
      exact Splice.mem_filter_isNoop (List.mem_cons_of_mem _ List.mem_cons_self) (.inl (List.length_pos_iff.2 hnil))
  | free =>
    have := c.document.length_gap j
    exact .inr (List.length_eq_zero_iff.1 (by omega))

/-- The splice that makes the cut in what leads a token, unless there is nothing to cut. -/
theorem exists_leading (h : R.Plan c S j keep added) (hj : j = 0 ∨ c.document.split j < keep) :
    (∃ e ∈ S, ⟨j, .leading, keep - c.document.split j, (c.document.token j).leading.length, added⟩ ∈ e.splices) ∨
      (keep - c.document.split j = (c.document.token j).leading.length ∧ added = []) := by
  cases h with
  | contract => omega
  | final _ _ hcut hmem =>
    by_cases hdo : keep - c.document.split c.document.endOfFile =
        (c.document.token c.document.endOfFile).leading.length ∧ added = []
    · exact .inr hdo
    · refine .inl ⟨_, hmem, ?_⟩
      show _ ∈ c.document.endSplices keep added
      have hle := hcut.keep_le
      rw [Document.length_tail_eq] at hle
      unfold Document.endSplices
      dsimp only
      have hlen : keep - c.document.split c.document.endOfFile ≤
          (c.document.token c.document.endOfFile).leading.length := by omega
      refine Splice.mem_filter_isNoop ?_
        ((Nat.lt_or_ge (keep - _) _).imp_right fun hge ha => hdo ⟨Nat.le_antisymm hlen hge, ha⟩)
      rcases hj with hj | hj
      · rw [if_pos hj]
        exact List.mem_cons_self
      · split
        · exact List.mem_cons_self
        · rw [if_neg (Nat.not_le.2 hj)]
          exact List.mem_cons_self
  | free =>
    have := c.document.length_gap j
    rcases hj with rfl | hj
    · have h0 : c.document.split 0 = 0 := rfl
      exact .inr ⟨by omega, rfl⟩
    · exact .inr ⟨by omega, rfl⟩

end Plan

end Registry

end LayoutLint
