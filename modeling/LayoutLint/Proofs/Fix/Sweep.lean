import LayoutLint.Proofs.Fix.Reread
import LayoutLint.Proofs.Layout.Runs
import LayoutLint.Proofs.Layout.Trimmed
/-!
# Sweep — all white space at the ends of lines, taken away at once

Each run that the scan finds has an edit that takes its one piece of trivia away, and the edits can be made together:
every trivia list is left without the runs in it (`Parsed.applyAll_blankEdits`), and so is every gap
(`Parsed.exists_sweep`). The text that is left is read as the gaps that are left, with every CR joined to the LF that
has come to stand behind it. No white space stands at the end of a line there (`swept_of_ofSource`).
-/
namespace LayoutLint

open Piece (charsOf)

namespace Document

variable {d : Document}

/-- The edits for the white space at the ends of lines. -/
def blankEdits (d : Document) : List Edit := d.trailingBlanks.filterMap (Rule.noTrailingWhitespace.fix d)

/-- The edit for a run owns the run. -/
theorem Parsed.fix_of_mem (h : d.Parsed) {s : Span} (hs : s ∈ d.trailingBlanks) :
    ∃ j i t, d.IsRun j i t ∧ s = (d.placeAt j i t).span ∧
      Rule.noTrailingWhitespace.fix d s = some (d.runEdit j i t) := by
  obtain ⟨j, hj, i, t, ht, hends, rfl⟩ := h.mem_trailingBlanks.1 hs
  have hrun : d.IsRun j i t := ⟨hj, ht, hends⟩
  exact ⟨j, i, t, hrun, rfl, h.fix_run hrun⟩

theorem Parsed.mem_blankEdits (h : d.Parsed) {e : Edit} :
    e ∈ d.blankEdits ↔ ∃ j i t, d.IsRun j i t ∧ e = d.runEdit j i t := by
  rw [blankEdits, List.mem_filterMap]
  constructor
  · rintro ⟨s, hs, he⟩
    obtain ⟨j, i, t, hrun, -, hfix⟩ := h.fix_of_mem hs
    exact ⟨j, i, t, hrun, Option.some.inj (he.symm.trans hfix)⟩
  · rintro ⟨j, i, t, hrun, rfl⟩
    exact ⟨_, h.mem_trailingBlanks.2 ⟨j, hrun.gap, i, t, hrun.piece, hrun.ends, rfl⟩, h.fix_run hrun⟩

/-- **Every run has its edit**, in the order of the text. -/
theorem Parsed.map_span_blankEdits (h : d.Parsed) : d.blankEdits.map (·.span) = d.trailingBlanks := by
  have hspan : ∀ s ∈ d.trailingBlanks, (Rule.noTrailingWhitespace.fix d s).map (·.span) = some s := by
    intro s hs
    obtain ⟨j, i, t, -, rfl, hfix⟩ := h.fix_of_mem hs
    rw [hfix]
    rfl
  rw [blankEdits, List.map_filterMap, List.filterMap_congr hspan, List.filterMap_some]

/-- The edits follow one another in the order of the text. -/
theorem Parsed.pairwise_blankEdits (h : d.Parsed) :
    d.blankEdits.Pairwise fun e f => e.span.start < e.span.stop ∧ e.span.stop ≤ f.span.start := by
  have hordered := h.blanksExact.ordered
  rw [← h.map_span_blankEdits, List.pairwise_map] at hordered
  refine hordered.imp_of_mem fun {e f} he _ hef => ⟨h.blanksExact.nonempty _ ?_, hef⟩
  rw [← h.map_span_blankEdits]
  exact List.mem_map_of_mem he

theorem Parsed.allClear_blankEdits (h : d.Parsed) : AllClear d.blankEdits :=
  h.pairwise_blankEdits.imp fun hef => Edit.conflictsWith_eq_false_of_stop_le hef.2 (.inr (.inl hef.1))

theorem Parsed.nodup_blankEdits (h : d.Parsed) : d.blankEdits.Nodup := by
  refine h.pairwise_blankEdits.imp fun {e f} hef heq => ?_
  subst heq
  omega

theorem Parsed.mergeSort_blankEdits (h : d.Parsed) : d.blankEdits.mergeSort Edit.le = d.blankEdits := by
  refine List.mergeSort_of_pairwise (h.pairwise_blankEdits.imp fun {e f} hef => ?_)
  have hlt : e.span.start < f.span.start := Nat.lt_of_lt_of_le hef.1 hef.2
  simp [Edit.le, Span.le, hlt]

/-! ### What is left of the trivia of a token -/

/-- Is piece `i` of the gap in front of token `j` white space at the end of a line? -/
def isRunAt (d : Document) (j i : Nat) : Bool :=
  (d.gap j)[i]?.any fun t => isRun (j == d.endOfFile) t ((d.gap j).drop (i + 1))

theorem isRunAt_iff {j i : Nat} : d.isRunAt j i = true ↔
    ∃ t, (d.gap j)[i]? = some t ∧ isRun (j == d.endOfFile) t ((d.gap j).drop (i + 1)) = true := by
  rw [isRunAt, Option.any_eq_true]

theorem picksRuns_isRunAt (d : Document) (j : Nat) : PicksRuns (j == d.endOfFile) (d.isRunAt j) (d.gap j) := by
  intro i t ht hrun
  obtain ⟨u, hu, hends⟩ := isRunAt_iff.1 hrun
  obtain rfl := Option.some.inj (ht.symm.trans hu)
  exact hends

/-- The gap and the place in it of the piece with number `i` of a trivia list. -/
def placeOf (d : Document) (id : Nat) (slot : Slot) (i : Nat) : Nat × Nat := d.spot ⟨id, slot, i, i + 1, []⟩

/-- The splice that takes a piece of a trivia list away. -/
theorem removal_placeOf (d : Document) {id i : Nat} {slot : Slot} (hi : i < ((d.token id).trivia slot).length)
    (t : Trivia) : d.removal (d.placeOf id slot i).1 (d.placeOf id slot i).2 t = ⟨id, slot, i, i + 1, []⟩ := by
  rw [removal_eq]
  cases slot with
  | trailing => exact if_pos hi
  | leading =>
    refine (if_neg (Nat.not_lt.2 (Nat.le_add_right _ _))).trans ?_
    show (⟨id, .leading, d.split id + i - d.split id, d.split id + i - d.split id + 1, []⟩ : Splice) = _
    rw [Nat.add_sub_cancel_left]

/-- A piece that is taken away is one of the list that it is taken from. -/
theorem removal_start_lt (d : Document) {j i : Nat} {t : Trivia} (ht : (d.gap j)[i]? = some t) :
    (d.removal j i t).start < ((d.token (d.removal j i t).token).trivia (d.removal j i t).slot).length := by
  have hi := (List.getElem?_eq_some_iff.1 ht).1
  rw [removal_eq]
  split
  · rename_i hlt
    cases j with
    | zero => exact absurd hlt (Nat.not_lt_zero _)
    | succ j => exact hlt
  · rename_i hge
    have hlen := d.length_gap j
    show i - d.split j < (d.token j).leading.length
    omega

variable {S : List Edit}

/-- The splices of the edits for one trivia list. -/
theorem Parsed.mem_slotSplices_blanks (h : d.Parsed) (hS : ∀ e, e ∈ S ↔ e ∈ d.blankEdits) {id : Nat} {slot : Slot}
    {x : Splice} : x ∈ Registry.slotSplices S id slot ↔
      ∃ j i t, d.IsRun j i t ∧ x = d.removal j i t ∧ x.token = id ∧ x.slot = slot := by
  rw [Registry.mem_slotSplices]
  constructor
  · rintro ⟨⟨e, he, hx⟩, htoken, hslot⟩
    obtain ⟨j, i, t, hrun, rfl⟩ := h.mem_blankEdits.1 ((hS e).1 he)
    exact ⟨j, i, t, hrun, List.mem_singleton.1 hx, htoken, hslot⟩
  · rintro ⟨j, i, t, hrun, rfl, htoken, hslot⟩
    exact ⟨⟨_, (hS _).2 (h.mem_blankEdits.2 ⟨j, i, t, hrun, rfl⟩), List.mem_singleton.2 rfl⟩, htoken, hslot⟩

theorem Parsed.removes_of_mem (h : d.Parsed) (hS : ∀ e, e ∈ S ↔ e ∈ d.blankEdits) {s : Splice}
    (hs : s ∈ S.flatMap (·.splices)) : s.token < d.size ∧ s.replacement = [] := by
  obtain ⟨e, he, hse⟩ := List.mem_flatMap.1 hs
  obtain ⟨j, i, t, hrun, rfl⟩ := h.mem_blankEdits.1 ((hS e).1 he)
  obtain rfl := List.mem_singleton.1 hse
  exact ⟨d.removal_token_lt hrun.gap i t, rfl⟩

/-- No piece is taken away twice. -/
theorem Parsed.pairwise_blankSplices (h : d.Parsed) (hS : ∀ e, e ∈ S ↔ e ∈ d.blankEdits) (hnodup : S.Nodup) :
    (S.flatMap (·.splices)).Pairwise fun x y => x.token = y.token → x.slot = y.slot → x.start ≠ y.start := by
  refine List.pairwise_flatMap.2 ⟨fun e he => ?_, List.Pairwise.imp_of_mem ?_ hnodup⟩
  · obtain ⟨j, i, t, -, rfl⟩ := h.mem_blankEdits.1 ((hS e).1 he)
    exact List.pairwise_singleton _ _
  · intro e f he hf hne x hx y hy htoken hslot hstart
    obtain ⟨j, i, t, hrun, rfl⟩ := h.mem_blankEdits.1 ((hS e).1 he)
    obtain ⟨k, n, u, hrun', rfl⟩ := h.mem_blankEdits.1 ((hS f).1 hf)
    have hspot := spot_congr (d := d) htoken hslot hstart
    rw [List.mem_singleton.1 hx, List.mem_singleton.1 hy] at hspot
    obtain ⟨rfl, rfl⟩ := Prod.mk.inj ((d.spot_removal j i t).symm.trans (hspot.trans (d.spot_removal k n u)))
    exact hne (by rw [Option.some.inj (hrun.piece.symm.trans hrun'.piece)])

/-- **A trivia list is left without the runs in it.** -/
theorem Parsed.applyAll_blankEdits (h : d.Parsed) (hS : ∀ e, e ∈ S ↔ e ∈ d.blankEdits) (hnodup : S.Nodup) {id : Nat}
    (hid : id < d.size) (slot : Slot) :
    Splice.applyAll id ((d.token id).trivia slot) (Registry.slotSplices S id slot) =
      .ok (dropAt (fun i => d.isRunAt (d.placeOf id slot i).1 (d.placeOf id slot i).2) ((d.token id).trivia slot)) := by
  have hstart : ∀ i < ((d.token id).trivia slot).length, (Registry.slotSplices S id slot).any (·.start == i) =
      d.isRunAt (d.placeOf id slot i).1 (d.placeOf id slot i).2 := by
    intro i hi
    rw [Bool.eq_iff_iff, List.any_eq_true, isRunAt_iff]
    constructor
    · rintro ⟨x, hx, hxi⟩
      obtain ⟨j, n, t, hrun, rfl, rfl, rfl⟩ := (h.mem_slotSplices_blanks hS).1 hx
      have hplace : d.placeOf (d.removal j n t).token (d.removal j n t).slot i = (j, n) := by
        rw [← d.spot_removal j n t, placeOf]
        exact spot_congr rfl rfl (beq_iff_eq.1 hxi).symm
      rw [hplace]
      exact ⟨t, hrun.piece, hrun.ends⟩
    · rintro ⟨t, ht, hends⟩
      refine ⟨_, (h.mem_slotSplices_blanks hS).2 ⟨_, _, t, ⟨?_, ht, hends⟩, (d.removal_placeOf hi t).symm, rfl, rfl⟩,
        beq_self_eq_true i⟩
      cases slot with
      | leading => exact hid
      | trailing =>
        -- Nothing trails the token that closes the document.
        obtain ⟨ts, hts⟩ := h.proper.last
        have hne : id ≠ d.endOfFile := by
          rintro rfl
          rw [hts] at hi
          exact absurd hi (Nat.not_lt_zero _)
        have hs := d.size_eq
        show id + 1 < d.size
        omega
  have hfits : ∀ x ∈ Registry.slotSplices S id slot, x.Fits ((d.token id).trivia slot).length
      ((d.token id).trivia slot).length [] := by
    intro x hx
    obtain ⟨j, i, t, hrun, rfl, rfl, rfl⟩ := (h.mem_slotSplices_blanks hS).1 hx
    exact .inl ⟨⟨rfl, rfl⟩, d.removal_start_lt hrun.piece⟩
  have hdistinct : (Registry.slotSplices S id slot).Pairwise fun x y => x.start ≠ y.start :=
    Splice.pairwise_of_slot (h.pairwise_blankSplices hS hnodup) id slot
  rw [Splice.applyAll_eq (Nat.le_refl _) hfits hdistinct (.inr ⟨rfl, rfl⟩), List.take_length, List.append_nil,
    dropAt_congr hstart]

/-- A token without the white space at the ends of lines. -/
def sweptToken (d : Document) (id : Nat) : Token :=
  { d.token id with
    leading := dropAt (fun i => d.isRunAt id (d.split id + i)) (d.token id).leading
    trailing := dropAt (d.isRunAt (id + 1)) (d.token id).trailing }

theorem Parsed.splice_blanks (h : d.Parsed) (hS : ∀ e, e ∈ S ↔ e ∈ d.blankEdits) (hnodup : S.Nodup) {id : Nat}
    (hid : id < d.size) :
    (d.token id).splice id ((S.flatMap (·.splices)).filter (·.token == id)) = .ok (d.sweptToken id) :=
  Token.splice_eq (h.proper.present id) (h.applyAll_blankEdits hS hnodup hid .leading)
    (h.applyAll_blankEdits hS hnodup hid .trailing)

/-! ### What is left of the document -/

/-- A document of a text without the white space at the ends of lines. -/
structure SweptTo (d e : Document) : Prop where
  proper : e.Proper
  rewords : d.Rewords e
  gap : ∀ j ≤ d.endOfFile, e.gap j = dropAt (d.isRunAt j) (d.gap j)

/-- The gaps of the tokens without the white space at the ends of lines. -/
theorem Proper.sweptTo_of_tokens (h : d.Proper) {e : Document}
    (he : e.tokens.toList = (List.range d.size).map d.sweptToken) : d.SweptTo e := by
  have hs := d.size_eq
  have hlast : (d.sweptToken d.endOfFile).trailing = [] := by
    obtain ⟨ts, hts⟩ := h.last
    rw [sweptToken, hts]
    rfl
  obtain ⟨hproper, hrewords, htoken⟩ := h.of_tokens (f := d.sweptToken) (fun _ => ⟨_, _, rfl⟩) hlast he
  refine ⟨hproper, hrewords, fun j hj => ?_⟩
  cases j with
  | zero =>
    rw [gap, htoken 0 (by omega)]
    exact dropAt_congr fun i _ => congrArg (d.isRunAt 0) (Nat.zero_add i)
  | succ j =>
    rw [gap, htoken j (by omega), htoken (j + 1) (by omega), gap, dropAt_append]
    rfl

/-- **The edits can be made together**, and leave every gap without the white space at the ends of its lines. -/
theorem Parsed.exists_sweep (h : d.Parsed) :
    ∃ o, d.applyEdits d.blankEdits = .ok o ∧ o.applied = d.blankEdits ∧ d.SweptTo o.document := by
  by_cases hnil : d.blankEdits = []
  · refine ⟨{ document := d, applied := [] }, by simp [applyEdits, hnil, firstConflict?], hnil.symm, h.proper,
      ⟨rfl, fun _ _ => rfl⟩, fun j hj => (dropAt_eq_self fun i _ => ?_).symm⟩
    have hs := d.size_eq
    refine Bool.eq_false_iff.2 fun hrun => ?_
    obtain ⟨t, ht, hends⟩ := isRunAt_iff.1 hrun
    have hmem := h.mem_blankEdits.2 ⟨j, i, t, ⟨by omega, ht, hends⟩, rfl⟩
    rw [hnil] at hmem
    cases hmem
  · have hsplices : ∀ e ∈ d.blankEdits, e.splices ≠ [] := by
      intro e he
      obtain ⟨j, i, t, -, rfl⟩ := h.mem_blankEdits.1 he
      exact List.cons_ne_nil _ _
    have hmem : ∀ e, e ∈ d.blankEdits.reverse ↔ e ∈ d.blankEdits := fun e => List.mem_reverse
    have hmade := fun id (hid : id < d.size) =>
      h.splice_blanks hmem (List.nodup_reverse.2 h.nodup_blankEdits) hid
    have hremoval := fun s hs => h.removes_of_mem hmem (s := s) hs
    rw [applyEdits_eq h.allClear_blankEdits hnil hsplices, h.mergeSort_blankEdits, applySplices]
    rcases h.proper.splice_cases (f := d.sweptToken) (fun _ => ⟨_, _, rfl⟩) (fun s hs => (hremoval s hs).1) hmade with
      ⟨e, he, htokens, -⟩ | ⟨-, hlarge⟩
    · rw [he]
      exact ⟨_, rfl, rfl, h.proper.sweptTo_of_tokens htokens⟩
    · have := d.lengthAfter_le fun s hs => (hremoval s hs).2
      have := d.length_le
      omega

namespace SweptTo

variable {e : Document}

/-- The pieces that are left. -/
theorem mended (he : d.SweptTo e) (h : d.Parsed) : Mended d.parts (weave d.piece e.gap 0 d.endOfFile) := by
  refine mended_weave h.proper (fun j hj => ?_) ?_
  · have hpicks := d.picksRuns_isRunAt j
    rw [beq_eq_false_iff_ne.2 (Nat.ne_of_lt hj)] at hpicks
    rw [he.gap j (Nat.le_of_lt hj)]
    exact .runs _ hpicks
  · have hpicks := d.picksRuns_isRunAt d.endOfFile
    rw [beq_self_eq_true] at hpicks
    rw [he.gap _ (Nat.le_refl _)]
    exact mended_tail_of_runs hpicks

/-- **The text that is left, read again.** -/
theorem reread (he : d.SweptTo e) (h : d.Parsed) {q : Document} (hq : ofSource e.text = .ok q) :
    q.Parsed ∧ q.endOfFile = d.endOfFile ∧
      ∀ j ≤ d.endOfFile, q.gap j = joinGap (dropAt (d.isRunAt j) (d.gap j)) := by
  obtain ⟨hqp, htext⟩ := parsed_of_ofSource hq
  have hwords : ∀ i < 0 + d.endOfFile, ∃ k w, d.piece i = .word k w := fun i _ => ⟨_, _, rfl⟩
  have hchars : q.text.toList = charsOf (weave d.piece e.gap 0 d.endOfFile) := by
    rw [htext, ← charsOf_parts, he.rewords.parts_eq he.proper]
  have hparts := Registry.reads_of_mended h hqp (he.mended h) hchars
  rw [joinBreaks_weave _ hwords] at hparts
  obtain ⟨heof, -, hgap⟩ := hqp.proper.of_parts_eq_weave (fun i _ => ⟨_, _, rfl⟩) hparts
  exact ⟨hqp, heof, fun j hj => by rw [hgap j hj, he.gap j hj]⟩

/-- **No white space stands at the end of a line in the text that is left.** -/
theorem trailingBlanks_eq_nil (he : d.SweptTo e) (h : d.Parsed) {q : Document} (hq : ofSource e.text = .ok q) :
    q.trailingBlanks = [] := by
  obtain ⟨hqp, heof, hgap⟩ := he.reread h hq
  have hs := q.size_eq
  rw [List.eq_nil_iff_forall_not_mem]
  intro s hmem
  obtain ⟨j, hj, i, t, ht, hrun, -⟩ := hqp.mem_trailingBlanks.1 hmem
  have htrimmed : Trimmed (j == d.endOfFile) (dropAt (d.isRunAt j) (d.gap j)) :=
    trimmed_dropAt (h.apart j) (d.picksRuns_isRunAt j) fun i t ht hends => isRunAt_iff.2 ⟨t, ht, hends⟩
  rw [hgap j (by omega)] at ht hrun
  rw [heof, trimmed_iff.1 htrimmed.joinGap i t ht] at hrun
  cases hrun

end SweptTo

/-- **The scan for white space at the ends of lines is exact**, and the edits for what it finds leave it nothing to
find. -/
theorem swept_of_ofSource {s : String} (h : ofSource s = .ok d) {c : RuleContext} (hd : c.document = d)
    (hc : c.cancelled = false) : ∃ found, c.trailingBlanks = .ok found ∧ d.BlanksExact found ∧
      ∃ o q, d.applyEdits (found.filterMap (Rule.noTrailingWhitespace.fix d)) = .ok o ∧
        o.applied.map (·.span) = found ∧ ofSource o.document.text = .ok q ∧
        ∀ c' : RuleContext, c'.document = q → c'.cancelled = false → c'.trailingBlanks = .ok [] := by
  obtain ⟨hp, -⟩ := parsed_of_ofSource h
  obtain ⟨o, ho, happlied, hswept⟩ := hp.exists_sweep
  obtain ⟨q, hq⟩ := exists_ofSource o.document.length_le
  refine ⟨_, hd ▸ RuleContext.trailingBlanks_of_not_cancelled hc, hp.blanksExact, o, q, ho, ?_, hq,
    fun c' hc' hcancel => ?_⟩
  · rw [happlied, hp.map_span_blankEdits]
  · rw [RuleContext.trailingBlanks_of_not_cancelled hcancel, hc', hswept.trailingBlanks_eq_nil hp hq]

/-- White space behind a word, in a line of its own and at the end of the text, but not in front of a word. -/
theorem swept_of_ofSource_words : ∃ d found o, ofSource "a \n\t\n b  " = .ok d ∧
    RuleContext.trailingBlanks { document := d, tree := ⟨[], []⟩ } = .ok found ∧ found = [⟨1, 2⟩, ⟨3, 4⟩, ⟨7, 9⟩] ∧
    d.applyEdits (found.filterMap (Rule.noTrailingWhitespace.fix d)) = .ok o ∧ o.applied.map (·.span) = found := by
  obtain ⟨d, hd, h⟩ := exists_ok_of_any (e := ofSource "a \n\t\n b  ")
    (p := fun d => d.trailingBlanks == [⟨1, 2⟩, ⟨3, 4⟩, ⟨7, 9⟩]) (by decide +kernel)
  let c : RuleContext := { document := d, tree := ⟨[], []⟩ }
  obtain ⟨found, hfound, -, o, -, ho, happlied, -⟩ := swept_of_ofSource (c := c) hd rfl rfl
  exact ⟨d, found, o, hd, hfound, (RuleContext.eq_trailingBlanks hfound).trans (beq_iff_eq.1 h), ho, happlied⟩

end Document

end LayoutLint
