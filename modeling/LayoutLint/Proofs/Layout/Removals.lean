import LayoutLint.Edit
import LayoutLint.Proofs.Layout.Apart
import LayoutLint.Proofs.Layout.Tiling
/-!
# Removals — trivia removed in the order of the text

Pieces of trivia are removed in the order of the text, and a piece next to the last one removed goes with it. So the
splices take runs of pieces away that are apart (`Splice.gathered_removing`), and they can always be made
(`Document.exists_splice_removing`), as no trivia belongs to a missing token. What is removed has text, so the text is
shorter then (`Document.Parsed.lengthAfter_lt`).
-/
namespace LayoutLint

/-- A number is at most the sum that it is part of. -/
theorem le_total_of_mem {n : Nat} {l : List Nat} (h : n ∈ l) : n ≤ total l := by
  obtain ⟨a, b, rfl⟩ := List.append_of_mem h
  rw [total_append, total_cons]
  omega

namespace Splice

variable {d : Document} {done : List Splice} {p : PlacedTrivia} {ps : List PlacedTrivia}

/-- Takes some pieces of a trivia list away, and puts nothing in their place. -/
structure Removes (d : Document) (s : Splice) : Prop where
  token : s.token < d.size
  start_lt : s.start < s.stop
  stop_le : s.stop ≤ ((d.token s.token).trivia s.slot).length
  none : s.replacement = []

/-- Runs of pieces, the latest first, that are removed. -/
structure Gathered (d : Document) (done : List Splice) : Prop where
  removes : ∀ s ∈ done, s.Removes d
  later : done.Pairwise fun s t => s.token = t.token → s.slot = t.slot → t.stop ≤ s.start

/-- Does the splice end in front of the piece, if they are about the same list? -/
def Front (s : Splice) (p : PlacedTrivia) : Prop := s.token = p.token → s.slot = p.slot → s.stop ≤ p.index

/-- A splice that removes one more piece is one of those before, or it ends with that piece. -/
theorem mem_alsoRemove {s : Splice} (hs : s ∈ alsoRemove done p) :
    s ∈ done ∨ (s.token = p.token ∧ s.slot = p.slot ∧ s.stop = p.index + 1) := by
  cases done with
  | nil =>
    rw [alsoRemove, List.mem_singleton] at hs
    exact .inr (hs ▸ ⟨rfl, rfl, rfl⟩)
  | cons t rest =>
    rw [alsoRemove] at hs
    split at hs
    · rename_i hnext
      rcases List.mem_cons.1 hs with rfl | hs
      · exact .inr ⟨hnext.1, hnext.2.1, congrArg (· + 1) hnext.2.2⟩
      · exact .inl (List.mem_cons_of_mem t hs)
    · rcases List.mem_cons.1 hs with rfl | hs
      · exact .inr ⟨rfl, rfl, rfl⟩
      · exact .inl hs

/-- **Removing one more piece** behind those removed before. -/
theorem Gathered.alsoRemove (h : Gathered d done) (htoken : p.token < d.size)
    (hindex : p.index < ((d.token p.token).trivia p.slot).length) (hfront : ∀ s ∈ done, s.Front p) :
    Gathered d (alsoRemove done p) := by
  have hnew : Removes d ⟨p.token, p.slot, p.index, p.index + 1, []⟩ := ⟨htoken, Nat.lt_succ_self _, hindex, rfl⟩
  cases done with
  | nil => exact ⟨fun s hs => List.mem_singleton.1 hs ▸ hnew, List.pairwise_singleton _ _⟩
  | cons t rest =>
    obtain ⟨hlater, hrest⟩ := List.pairwise_cons.1 h.later
    have ht := h.removes t List.mem_cons_self
    rw [Splice.alsoRemove]
    split
    · rename_i hnext
      obtain ⟨htk, hsl, hstop⟩ := hnext
      refine ⟨fun s hs => ?_, List.pairwise_cons.2 ⟨hlater, hrest⟩⟩
      rcases List.mem_cons.1 hs with rfl | hs
      · refine ⟨ht.token, Nat.lt_succ_of_lt ht.start_lt, ?_, ht.none⟩
        show t.stop + 1 ≤ ((d.token t.token).trivia t.slot).length
        rw [hstop, htk, hsl]
        exact hindex
      · exact h.removes s (List.mem_cons_of_mem t hs)
    · refine ⟨fun s hs => ?_, List.pairwise_cons.2 ⟨fun s hs htk hsl => hfront s hs htk.symm hsl.symm, h.later⟩⟩
      rcases List.mem_cons.1 hs with rfl | hs
      · exact hnew
      · exact h.removes s hs

/-- Removing pieces that follow one another, and all splices before. -/
theorem Gathered.foldl (h : Gathered d done) (hps : ∀ p ∈ ps, p.token < d.size ∧
      p.index < ((d.token p.token).trivia p.slot).length)
    (horder : ps.Pairwise fun p q => p.token = q.token → p.slot = q.slot → p.index < q.index)
    (hfront : ∀ s ∈ done, ∀ p ∈ ps, s.Front p) : Gathered d (ps.foldl Splice.alsoRemove done) := by
  induction ps generalizing done with
  | nil => exact h
  | cons p ps ih =>
    obtain ⟨hbehind, horder⟩ := List.pairwise_cons.1 horder
    obtain ⟨htoken, hindex⟩ := hps p List.mem_cons_self
    refine ih (h.alsoRemove htoken hindex fun s hs => hfront s hs p List.mem_cons_self)
      (fun q hq => hps q (List.mem_cons_of_mem p hq)) horder fun s hs q hq => ?_
    rcases mem_alsoRemove hs with hs | ⟨htk, hsl, hstop⟩
    · exact hfront s hs q (List.mem_cons_of_mem p hq)
    · exact fun htk' hsl' => hstop ▸ hbehind q hq (htk.symm.trans htk') (hsl.symm.trans hsl')

theorem Gathered.apart (h : Gathered d done) :
    done.Pairwise fun s t => s.token = t.token → s.slot = t.slot → s.Apart t := by
  refine h.later.imp_of_mem fun {s t} _ ht hst htk hsl => ?_
  have hstop := hst htk hsl
  have := (h.removes t ht).start_lt
  exact ⟨by omega, .inr hstop⟩

end Splice

namespace Document

variable {d : Document} {ps : List PlacedTrivia}

theorem triviaIn_sublist (d : Document) (span : Span) (p : Trivia → Bool) : (d.triviaIn span p).Sublist d.trivia :=
  List.filter_sublist.trans (d.tokenTrivia_sublist _ _)

/-- Where a piece of trivia stands. -/
theorem placed_of_mem_trivia (d : Document) {x : PlacedTrivia} (hx : x ∈ d.trivia) : x.token < d.size ∧
    ((d.token x.token).trivia x.slot)[x.index]? = some x.trivia ∧
      x.span = ⟨d.pieceStart x.token x.slot x.index, d.pieceStart x.token x.slot (x.index + 1)⟩ := by
  obtain ⟨id, hid, slot, hx⟩ := d.mem_trivia.1 hx
  obtain ⟨k, t, ht, rfl⟩ := d.mem_slotTrivia.1 hx
  exact ⟨hid, ht, rfl⟩

/-- Pieces of one list that have text stand in its order. -/
theorem index_lt_of_stop_le (d : Document) {x y : PlacedTrivia} (hx : x ∈ d.trivia) (hy : y ∈ d.trivia)
    (hpos : x.span.isEmpty = false) (hle : x.span.stop ≤ y.span.start) (htoken : x.token = y.token)
    (hslot : x.slot = y.slot) : x.index < y.index := by
  obtain ⟨-, -, hspan⟩ := d.placed_of_mem_trivia hx
  obtain ⟨-, -, hspan'⟩ := d.placed_of_mem_trivia hy
  rw [Span.isEmpty, beq_eq_false_iff_ne, hspan] at hpos
  rw [hspan, hspan', ← htoken, ← hslot] at hle
  refine Nat.lt_of_not_le fun hge => ?_
  have hstep := d.pieceStart_mono x.token x.slot (Nat.le_add_right x.index 1)
  have hback := d.pieceStart_mono x.token x.slot hge
  dsimp only at hpos hle
  omega

/-- **The splices that remove pieces of trivia** take runs of them away, and no two touch the same piece. -/
theorem gathered_removing (d : Document) (hps : ps.Sublist d.trivia) (hpos : ∀ x ∈ ps, x.span.isEmpty = false) :
    Splice.Gathered d (Splice.removing ps).reverse := by
  rw [Splice.removing, List.reverse_reverse]
  refine Splice.Gathered.foldl ⟨fun s hs => absurd hs List.not_mem_nil, .nil⟩ (fun p hp => ?_) ?_
    fun s hs => absurd hs List.not_mem_nil
  · obtain ⟨htoken, ht, -⟩ := d.placed_of_mem_trivia (hps.subset hp)
    exact ⟨htoken, (List.getElem?_eq_some_iff.1 ht).1⟩
  · refine (d.pairwise_trivia.sublist hps).imp_of_mem fun {x y} hx hy hle => ?_
    exact d.index_lt_of_stop_le (hps.subset hx) (hps.subset hy) (hpos x hx) hle

theorem removes_of_mem_removing (d : Document) (hps : ps.Sublist d.trivia) (hpos : ∀ x ∈ ps, x.span.isEmpty = false) :
    ∀ s ∈ Splice.removing ps, s.Removes d := fun s hs =>
  (d.gathered_removing hps hpos).removes s (List.mem_reverse.2 hs)

theorem apart_removing (d : Document) (hps : ps.Sublist d.trivia) (hpos : ∀ x ∈ ps, x.span.isEmpty = false) :
    (Splice.removing ps).Pairwise fun s t => s.token = t.token → s.slot = t.slot → s.Apart t :=
  (List.pairwise_reverse.1 (d.gathered_removing hps hpos).apart).imp fun hst htoken hslot =>
    Std.Symm.symm _ _ (hst htoken.symm hslot.symm)

theorem isBare_of_checkTokensFrom : ∀ {ts : List Token} {index offset : Nat}, checkTokensFrom index offset ts = .ok () →
    ∀ t ∈ ts, t.missing = true → t.isBare = true
  | t :: ts, _, _, h, u, hu, hmissing => by
    rw [checkTokensFrom] at h
    split at h
    · cases h
    split at h
    · cases h
    rename_i hbare
    split at h
    · cases h
    rcases List.mem_cons.1 hu with rfl | hu
    · simpa only [hmissing, Bool.true_and, Bool.not_eq_true', Bool.not_eq_false] using hbare
    · exact isBare_of_checkTokensFrom h u hu hmissing

/-- A token with trivia is not missing. -/
theorem present_of_trivia (d : Document) {id : Nat} {slot : Slot} (hid : id < d.size)
    (h : (d.token id).trivia slot ≠ []) : (d.token id).missing = false := by
  have haccepted := d.accepted
  rw [checkTokens] at haccepted
  have hok : checkTokensFrom 0 0 d.tokens.toList = .ok () := by
    split at haccepted
    · split at haccepted
      · exact haccepted
      · cases haccepted
    · cases haccepted
  have hmem : d.token id ∈ d.tokens.toList := by
    rw [d.token_eq_getElem hid]
    exact Array.getElem_mem_toList hid
  refine Bool.eq_false_iff.2 fun hmissing => h ?_
  have hbare := isBare_of_checkTokensFrom hok _ hmem hmissing
  simp only [Token.isBare, Bool.and_eq_true, List.isEmpty_iff] at hbare
  cases slot with
  | leading => exact hbare.1.2
  | trailing => exact hbare.2

/-- **Removing trivia can always be done.** -/
theorem exists_splice_removing (d : Document) (hps : ps.Sublist d.trivia) (hpos : ∀ x ∈ ps, x.span.isEmpty = false) :
    ∃ q, d.splice (Splice.removing ps) = .ok q ∧ q.length = d.lengthAfter (Splice.removing ps) := by
  have hremoves := d.removes_of_mem_removing hps hpos
  refine exists_splice_of_apart (fun s hs => ?_) (d.apart_removing hps hpos) ?_
  · obtain ⟨htoken, hlt, hle, -⟩ := hremoves s hs
    have hsome : (d.token s.token).trivia s.slot ≠ [] := List.ne_nil_of_length_pos (by omega)
    exact ⟨htoken, d.present_of_trivia htoken hsome, Nat.le_of_lt hlt, hle⟩
  · exact Nat.le_trans (d.lengthAfter_le fun s hs => (hremoves s hs).none) d.length_le

/-- Trivia of a document has text. -/
theorem Parsed.listWidth_pos (h : d.Parsed) {id : Nat} {slot : Slot} {ts : List Trivia}
    (hts : ∀ t ∈ ts, t ∈ (d.token id).trivia slot) (hne : ts ≠ []) : 0 < Trivia.listWidth ts := by
  obtain ⟨t, ht⟩ := List.exists_mem_of_ne_nil ts hne
  have hpos : 0 < t.width := by
    cases slot with
    | leading =>
      refine h.width_pos (j := id) ?_
      cases id with
      | zero => exact hts t ht
      | succ id => exact List.mem_append_right _ (hts t ht)
    | trailing => exact h.width_pos (j := id + 1) (List.mem_append_left _ (hts t ht))
  exact Nat.lt_of_lt_of_le hpos (le_total_of_mem (List.mem_map_of_mem ht))

/-- **Removing trivia makes a text shorter.** -/
theorem Parsed.lengthAfter_lt (h : d.Parsed) {ss : List Splice} (hss : ∀ s ∈ ss, s.Removes d) (hne : ss ≠ []) :
    d.lengthAfter ss < d.length := by
  obtain ⟨s, hs⟩ := List.exists_mem_of_ne_nil ss hne
  obtain ⟨htoken, hlt, hle, -⟩ := hss s hs
  have hcut : 0 < Trivia.listWidth (s.cutFrom ((d.token s.token).trivia s.slot)) := by
    refine h.listWidth_pos (fun t ht => List.mem_of_mem_take (List.mem_of_mem_drop ht)) ?_
    rw [Splice.cutFrom, ne_eq, List.drop_eq_nil_iff, List.length_take]
    omega
  have hlist := Splice.listWidth_cutFrom ((d.token s.token).trivia s.slot) (Nat.le_of_lt hlt)
  have hfull : Trivia.listWidth ((d.token s.token).trivia s.slot) ≤ (d.token s.token).fullWidth := by
    rw [Token.fullWidth]
    cases s.slot with
    | leading => exact Nat.le_trans (Nat.le_add_right _ _) (Nat.le_add_right _ _)
    | trailing => exact Nat.le_add_left _ _
  have hlength : (d.token s.token).fullWidth ≤ d.length := by
    rw [d.length_eq_total]
    exact le_total_of_mem (List.mem_map_of_mem (List.mem_range.2 htoken))
  have htaken : Trivia.listWidth (s.cutFrom ((d.token s.token).trivia s.slot)) ≤
      total (ss.map fun s => Trivia.listWidth (s.cutFrom ((d.token s.token).trivia s.slot))) :=
    le_total_of_mem (List.mem_map.2 ⟨s, hs, rfl⟩)
  rw [lengthAfter, Splice.total_replacement fun s hs => (hss s hs).none]
  omega

end Document

end LayoutLint
