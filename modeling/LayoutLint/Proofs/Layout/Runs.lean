import LayoutLint.Proofs.Layout.Blanks
import Mathlib.Data.List.Pairwise
/-!
# Runs — what the scan for white space at the ends of lines finds

The pieces of trivia of a document are never empty, so one piece stands right behind another only when it is the next of
the same gap (`Parsed.start_eq_stop_iff`), and up to a word or to the end of the text only when it is the last of a gap
(`Parsed.stop_eq_start_iff`). What the scan finds can be told from the places alone, then: the white space behind which
a line break starts or the text ends, and nothing else (`Parsed.blanksExact`).
-/
namespace LayoutLint

/-- Trivia one piece behind another: the runs in it are the pieces that a test picks which tells them. -/
theorem InPlace.runsIn_eq {last : Bool} {p : PlacedTrivia → Bool} : ∀ {n : Nat} {xs : List PlacedTrivia}
    {g : List Trivia}, InPlace n xs g →
    (∀ i x, xs[i]? = some x → p x = isRun last x.trivia (g.drop (i + 1))) →
      runsIn last n g = (xs.filter p).map (·.span)
  | _, [], [], _, _ => rfl
  | _, x :: xs, t :: g, ⟨ht, hspan, hrest⟩, hp => by
    have h0 := hp 0 x rfl
    rw [List.drop_succ_cons, List.drop_zero, ht] at h0
    rw [runsIn, hrest.runsIn_eq fun i y hy => hp (i + 1) y hy, List.filter_cons, h0]
    split
    · rw [List.map_cons, hspan]
      rfl
    · rfl

namespace Document

variable {d : Document}

/-- Does a line end right behind the piece of trivia, with the break that starts there or with the text? -/
def endsLineBehind (d : Document) (x : PlacedTrivia) : Bool :=
  x.span.stop == d.length || d.trivia.any fun y => y.trivia.isEndOfLine && y.span.start == x.span.stop

/-- White space right behind which a line ends. -/
def isTrailingBlank (d : Document) (x : PlacedTrivia) : Bool := x.trivia.isWhitespace && d.endsLineBehind x

/-! ### What stands right behind a piece -/

/-- **Right behind a piece stands the next piece of its gap**, and no other. -/
theorem Parsed.start_eq_stop_iff (h : d.Parsed) {j k i n : Nat} {t u : Trivia} (hj : j < d.size) (hk : k < d.size)
    (ht : (d.gap j)[i]? = some t) (hu : (d.gap k)[n]? = some u) :
    (d.placeAt k n u).span.start = (d.placeAt j i t).span.stop ↔ k = j ∧ n = i + 1 := by
  have hi := (List.getElem?_eq_some_iff.1 ht).1
  have hn := (List.getElem?_eq_some_iff.1 hu).1
  have hle := Trivia.listWidth_take_le (d.gap j) (i + 1)
  have hle' := Trivia.listWidth_take_le (d.gap k) n
  rw [d.placeAt_stop ht,
    show (d.placeAt k n u).span.start = d.gapStart k + Trivia.listWidth ((d.gap k).take n) from rfl]
  constructor
  · intro heq
    rcases Nat.lt_trichotomy k j with hlt | rfl | hlt
    · have := h.proper.gapStart_lt hlt hj
      omega
    · refine ⟨rfl, ?_⟩
      rcases Nat.lt_trichotomy n (i + 1) with hlt | hni | hlt
      · have := h.listWidth_take_lt hlt hi
        omega
      · exact hni
      · have := h.listWidth_take_lt hlt (Nat.le_of_lt hn)
        omega
    · have := h.proper.gapStart_lt hlt hk
      omega
  · rintro ⟨rfl, rfl⟩
    rfl

/-- **Right behind the last piece of a gap stands its word**, and behind no other. -/
theorem Parsed.stop_eq_start_iff (h : d.Parsed) {j i : Nat} {t : Trivia} (hj : j < d.size)
    (ht : (d.gap j)[i]? = some t) {id : Nat} (hid : id < d.size) :
    (d.placeAt j i t).span.stop = (d.span id).start ↔ j = id ∧ (d.gap j).length = i + 1 := by
  have hs := d.size_eq
  obtain ⟨hstart, hstop⟩ := d.placeAt_bounds hj ht
  have hpos : (d.placeAt j i t).span.start < (d.placeAt j i t).span.stop :=
    Nat.lt_add_of_pos_right (h.width_pos (List.mem_of_getElem? ht))
  constructor
  · intro heq
    rcases Nat.lt_trichotomy id j with hlt | rfl | hlt
    · have := d.gapStart_le hlt hj
      have := d.span_stop_eq id
      omega
    · refine ⟨rfl, Nat.le_antisymm (Nat.le_of_not_lt fun hlt => ?_) (List.getElem?_eq_some_iff.1 ht).1⟩
      have := h.listWidth_take_lt hlt (Nat.le_refl _)
      rw [d.placeAt_stop ht, d.span_start hj] at heq
      rw [List.take_length] at this
      omega
    · have := d.span_stop_le hlt hid
      have := h.proper.span_start_lt (i := j) (by omega)
      omega
  · rintro ⟨rfl, hlen⟩
    rw [d.placeAt_stop ht, d.span_start hj, ← hlen, List.take_length]

theorem Parsed.stop_eq_length_iff (h : d.Parsed) {j i : Nat} {t : Trivia} (hj : j < d.size)
    (ht : (d.gap j)[i]? = some t) :
    (d.placeAt j i t).span.stop = d.length ↔ j = d.endOfFile ∧ (d.gap j).length = i + 1 := by
  have hs := d.size_eq
  rw [← h.stop_eq_start_iff hj ht (by omega), h.proper.span_endOfFile]

/-- A line ends right behind a piece when it ends in front of what follows in the gap. -/
theorem Parsed.endsLineBehind_placeAt (h : d.Parsed) {j i : Nat} {t : Trivia} (hj : j < d.size)
    (ht : (d.gap j)[i]? = some t) :
    d.endsLineBehind (d.placeAt j i t) = endsLine (j == d.endOfFile) ((d.gap j).drop (i + 1)) := by
  have hbreak : (d.trivia.any fun y => y.trivia.isEndOfLine && y.span.start == (d.placeAt j i t).span.stop) =
      (d.gap j)[i + 1]?.any Trivia.isEndOfLine := by
    rw [Bool.eq_iff_iff, List.any_eq_true, Option.any_eq_true]
    simp only [h.proper.trivia_eq, List.mem_flatMap, List.mem_range, Bool.and_eq_true, beq_iff_eq]
    constructor
    · rintro ⟨y, ⟨k, hk, hy⟩, heol, hstart⟩
      obtain ⟨n, u, hu, rfl⟩ := (d.mem_placed hk).1 hy
      obtain ⟨rfl, rfl⟩ := (h.start_eq_stop_iff hj hk ht hu).1 hstart
      exact ⟨u, hu, heol⟩
    · rintro ⟨u, hu, heol⟩
      exact ⟨d.placeAt j (i + 1) u, ⟨j, hj, (d.mem_placed hj).2 ⟨_, _, hu, rfl⟩⟩, heol,
        (h.start_eq_stop_iff hj hj ht hu).2 ⟨rfl, rfl⟩⟩
  have hi : i + 1 ≤ (d.gap j).length := (List.getElem?_eq_some_iff.1 ht).1
  rw [endsLineBehind, hbreak]
  rcases Nat.lt_or_eq_of_le hi with hlt | heq
  · have hnot : ((d.placeAt j i t).span.stop == d.length) = false := by
      rw [beq_eq_false_iff_ne, Ne, h.stop_eq_length_iff hj ht]
      omega
    rw [hnot, Bool.false_or, List.getElem?_eq_getElem hlt, List.drop_eq_getElem_cons hlt]
    rfl
  · have hstop : ((d.placeAt j i t).span.stop == d.length) = (j == d.endOfFile) := by
      rw [Bool.eq_iff_iff, beq_iff_eq, beq_iff_eq, h.stop_eq_length_iff hj ht, heq]
      exact and_iff_left rfl
    rw [hstop, List.getElem?_eq_none (Nat.le_of_eq heq.symm), List.drop_eq_nil_of_le (Nat.le_of_eq heq.symm)]
    exact Bool.or_false _

theorem Parsed.isTrailingBlank_placeAt (h : d.Parsed) {j i : Nat} {t : Trivia} (hj : j < d.size)
    (ht : (d.gap j)[i]? = some t) :
    d.isTrailingBlank (d.placeAt j i t) = isRun (j == d.endOfFile) t ((d.gap j).drop (i + 1)) := by
  rw [isTrailingBlank, h.endsLineBehind_placeAt hj ht]
  rfl

/-! ### The scan is exact -/

/-- **What the scan finds**, told from the places of the trivia. -/
theorem Parsed.trailingBlanks_eq_filter (h : d.Parsed) :
    d.trailingBlanks = (d.trivia.filter d.isTrailingBlank).map (·.span) := by
  rw [h.trailingBlanks_eq, h.proper.trivia_eq, List.filter_flatMap, List.map_flatMap]
  refine List.flatMap_congr fun j hj => ?_
  have hj := List.mem_range.1 hj
  refine (d.inPlace_placed hj).runsIn_eq fun i x hx => ?_
  rw [d.getElem?_placed hj, Option.map_eq_some_iff] at hx
  obtain ⟨t, ht, rfl⟩ := hx
  exact h.isTrailingBlank_placeAt hj ht

theorem intersects_eq_false_of_le {a b : Span} (h : a.stop ≤ b.start ∨ b.stop ≤ a.start) : a.intersects b = false := by
  rw [Span.intersects, Bool.and_eq_false_iff, decide_eq_false_iff_not, decide_eq_false_iff_not]
  omega

/-- One of the two pieces stands behind the other. -/
def Beside (x y : PlacedTrivia) : Prop := x.span.stop ≤ y.span.start ∨ y.span.stop ≤ x.span.start

instance : Std.Symm Beside := ⟨fun _ _ => Or.symm⟩

theorem beside_of_mem {x y : PlacedTrivia} (hx : x ∈ d.trivia) (hy : y ∈ d.trivia) (hne : x ≠ y) : Beside x y := by
  have h : d.trivia.Pairwise Beside := d.pairwise_trivia.imp Or.inl
  exact h.forall hx hy hne

/-- The regions are those of the white space right behind which a line ends, in the order of the text. No byte of a word
or of other trivia is in them, and none of them goes up to a word. -/
structure BlanksExact (d : Document) (found : List Span) : Prop where
  exact : found = (d.trivia.filter d.isTrailingBlank).map (·.span)
  ordered : found.Pairwise fun a b => a.stop ≤ b.start
  nonempty : ∀ s ∈ found, s.start < s.stop
  nodup : found.Nodup
  words : ∀ s ∈ found, ∀ id < d.size, s.intersects (d.span id) = false
  others : ∀ s ∈ found, ∀ x ∈ d.trivia, x.trivia.isWhitespace = false → s.intersects x.span = false
  indentation : ∀ s ∈ found, ∀ id < d.endOfFile, s.stop ≠ (d.span id).start

/-- **The scan for white space at the ends of lines is exact.** -/
theorem Parsed.blanksExact (h : d.Parsed) : d.BlanksExact d.trailingBlanks := by
  have hs := d.size_eq
  have hexact := h.trailingBlanks_eq_filter
  have hordered : d.trailingBlanks.Pairwise fun a b => a.stop ≤ b.start := by
    rw [hexact]
    exact List.pairwise_map.2 (d.pairwise_trivia.filter _)
  have hnonempty : ∀ s ∈ d.trailingBlanks, s.start < s.stop := by
    intro s hmem
    obtain ⟨j, -, i, t, ht, -, rfl⟩ := h.mem_trailingBlanks.1 hmem
    exact Nat.lt_add_of_pos_right (h.width_pos (List.mem_of_getElem? ht))
  refine ⟨hexact, hordered, hnonempty, ?_, fun s hmem id hid => ?_, fun s hmem x hx hw => ?_, fun s hmem id hid => ?_⟩
  · refine hordered.imp_of_mem fun {a b} ha _ hab heq => ?_
    have := hnonempty a ha
    rw [heq] at hab this
    omega
  · obtain ⟨j, hj, i, t, ht, -, rfl⟩ := h.mem_trailingBlanks.1 hmem
    obtain ⟨hstart, hstop⟩ := d.placeAt_bounds hj ht
    rcases Nat.lt_or_ge id j with hlt | hge
    · exact intersects_eq_false_of_le (.inr (Nat.le_trans (d.gapStart_le hlt hj) hstart))
    · exact intersects_eq_false_of_le (.inl (Nat.le_trans hstop (d.span_start_mono hge hid)))
  · rw [hexact, List.mem_map] at hmem
    obtain ⟨y, hy, rfl⟩ := hmem
    obtain ⟨hy, hblank⟩ := List.mem_filter.1 hy
    have hne : y ≠ x := by
      rintro rfl
      rw [isTrailingBlank, hw] at hblank
      cases hblank
    exact intersects_eq_false_of_le (beside_of_mem hy hx hne)
  · obtain ⟨j, hj, i, t, ht, hrun, rfl⟩ := h.mem_trailingBlanks.1 hmem
    intro heq
    obtain ⟨rfl, hlast⟩ := (h.stop_eq_start_iff hj ht (by omega)).1 heq
    -- In front of a word the gap would go on.
    rw [List.drop_eq_nil_of_le (Nat.le_of_eq hlast), isRun, endsLine, beq_eq_false_iff_ne.2 (Nat.ne_of_lt hid),
      Bool.and_false] at hrun
    cases hrun

end Document

end LayoutLint
