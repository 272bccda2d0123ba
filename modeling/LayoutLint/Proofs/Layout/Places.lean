import LayoutLint.Edit
import LayoutLint.Proofs.Layout.Gaps
import Mathlib.Data.List.Flatten
/-!
# Places — where the words and the gaps of a document stand

A gap starts where the token before it ends and goes on up to the token after it (`gapStart`, `span_start`). The trivia
of a document, gap by gap (`trivia_eq`), follows one piece after another without overlap, so a region that is that of
one piece holds no other piece (`triviaIn_piece`).
-/
namespace LayoutLint

namespace Document

variable {d : Document}

theorem getD_startsFrom (ts : List Token) (offset i e : Nat) : (startsFrom offset ts).getD i e =
    if i < ts.length then offset + total ((ts.take i).map Token.fullWidth) else e := by
  induction ts generalizing offset i with
  | nil => rfl
  | cons t ts ih =>
    cases i with
    | zero => simp [startsFrom]
    | succ i =>
      rw [startsFrom, List.getD_cons_succ, ih]
      simp only [List.length_cons, List.take_succ_cons, List.map_cons, total_cons, Nat.add_lt_add_iff_right,
        Nat.add_assoc]

theorem fullStart_eq (d : Document) {i : Nat} (h : i ≤ d.size) :
    d.fullStart i = total ((d.tokens.toList.take i).map Token.fullWidth) := by
  have hlen : d.tokens.toList.length = d.size := rfl
  rw [fullStart, d.starts_eq, Array.getD_eq_getD_getElem?, List.getElem?_toArray, ← List.getD_eq_getElem?_getD,
    getD_startsFrom]
  split
  · rw [Nat.zero_add]
  · rw [List.take_of_length_le (by omega), length, d.text_eq, utf8ByteSize_textOf]

theorem fullStart_zero (d : Document) : d.fullStart 0 = 0 := by
  rw [d.fullStart_eq (Nat.zero_le _)]
  rfl

theorem take_succ_tokens (d : Document) {i : Nat} (hi : i < d.size) :
    d.tokens.toList.take (i + 1) = d.tokens.toList.take i ++ [d.token i] := by
  have hlen : i < d.tokens.toList.length := hi
  rw [List.take_succ_eq_append_getElem hlen, d.token_eq_getElem hi]
  rfl

theorem fullStart_succ (d : Document) {i : Nat} (h : i < d.size) :
    d.fullStart (i + 1) = d.fullStart i + (d.token i).fullWidth := by
  rw [d.fullStart_eq h, d.fullStart_eq (Nat.le_of_lt h), d.take_succ_tokens h, List.map_append, total_append]
  rfl

theorem fullStart_size (d : Document) : d.fullStart d.size = d.length := by
  rw [fullStart, d.starts_eq, Array.getD_eq_getD_getElem?, List.getElem?_toArray, ← List.getD_eq_getElem?_getD,
    getD_startsFrom, if_neg (by exact Nat.lt_irrefl _)]

theorem fullStart_mono (d : Document) {i j : Nat} (hij : i ≤ j) (hj : j ≤ d.size) : d.fullStart i ≤ d.fullStart j := by
  induction j with
  | zero => exact Nat.le_of_eq (by rw [Nat.le_zero.1 hij])
  | succ j ih =>
    rcases Nat.lt_or_eq_of_le hij with hlt | rfl
    · rw [d.fullStart_succ (by omega)]
      exact Nat.le_trans (ih (by omega) (by omega)) (Nat.le_add_right _ _)
    · exact Nat.le_refl _

theorem span_stop_eq (d : Document) (i : Nat) : (d.span i).stop = (d.span i).start + (d.token i).textWidth := rfl

theorem span_stop_add (d : Document) {i : Nat} (h : i < d.size) :
    (d.span i).stop + (d.token i).trailingWidth = d.fullStart (i + 1) := by
  rw [d.fullStart_succ h, Token.fullWidth]
  show d.fullStart i + (d.token i).leadingWidth + (d.token i).textWidth + (d.token i).trailingWidth = _
  omega

/-! ### Gaps -/

/-- Where the gap in front of a token starts. -/
def gapStart (d : Document) : Nat → Nat
  | 0 => 0
  | i + 1 => (d.span i).stop

end Document

theorem Trivia.listWidth_append (a b : List Trivia) : listWidth (a ++ b) = listWidth a + listWidth b := by
  simp [listWidth]

theorem Trivia.listWidth_take_le (g : List Trivia) (i : Nat) : listWidth (g.take i) ≤ listWidth g := by
  rw [← List.take_append_drop i g, Trivia.listWidth_append, List.take_append_drop]
  exact Nat.le_add_right _ _

theorem Trivia.listWidth_take_succ {g : List Trivia} {i : Nat} {t : Trivia} (h : g[i]? = some t) :
    listWidth (g.take (i + 1)) = listWidth (g.take i) + t.width := by
  obtain ⟨hi, rfl⟩ := List.getElem?_eq_some_iff.1 h
  rw [List.take_succ_eq_append_getElem hi, Trivia.listWidth_append, Trivia.listWidth_cons, Trivia.listWidth_nil,
    Nat.add_zero]

namespace Document

variable {d : Document}

theorem width_trivia (g : List Trivia) : Text.width (Piece.charsOf (g.map .trivia)) = Trivia.listWidth g := by
  induction g with
  | nil => rfl
  | cons t g ih =>
    rw [List.map_cons, Piece.charsOf_cons, Text.width_append, ih, Trivia.listWidth_cons, Trivia.width,
      Text.utf8ByteSize_eq_width]
    rfl

/-- **A token starts where the gap in front of it ends.** -/
theorem span_start (d : Document) {j : Nat} (h : j < d.size) :
    (d.span j).start = d.gapStart j + Trivia.listWidth (d.gap j) := by
  cases j with
  | zero =>
    show d.fullStart 0 + (d.token 0).leadingWidth = 0 + Trivia.listWidth (d.token 0).leading
    rw [d.fullStart_zero]
    rfl
  | succ i =>
    show d.fullStart (i + 1) + (d.token (i + 1)).leadingWidth = _
    rw [← d.span_stop_add (i := i) (by omega), gap, Trivia.listWidth_append]
    show (d.span i).stop + _ + _ = (d.span i).stop + _
    rw [Token.trailingWidth, Token.leadingWidth, Nat.add_assoc]

theorem Proper.textWidth_pos (h : d.Proper) {j : Nat} (hj : j < d.endOfFile) : 0 < (d.token j).textWidth := by
  have hne := h.word j hj
  rw [Token.textWidth]
  rcases Nat.eq_zero_or_pos (d.token j).text.utf8ByteSize with h0 | hpos
  · exact absurd (String.utf8ByteSize_eq_zero_iff.1 h0) hne
  · exact hpos

theorem Proper.span_endOfFile (h : d.Proper) : d.span d.endOfFile = ⟨d.length, d.length⟩ := by
  have hs := d.size_eq
  obtain ⟨ts, hts⟩ := h.last
  have hadd := d.span_stop_add (i := d.endOfFile) (by omega)
  rw [← hs, d.fullStart_size, hts] at hadd
  have hstop := d.span_stop_eq d.endOfFile
  rw [hts] at hstop
  have h₁ : (d.span d.endOfFile).stop = d.length := hadd
  have h₂ : (d.span d.endOfFile).start = d.length := hstop.symm.trans h₁
  rw [← h₁] at h₂ ⊢
  cases hspan : d.span d.endOfFile
  rw [hspan] at h₂
  exact congrArg (Span.mk · _) h₂

/-- Tokens stand one behind another. -/
theorem span_stop_le (d : Document) {i j : Nat} (hij : i < j) (hj : j < d.size) :
    (d.span i).stop ≤ (d.span j).start := by
  refine Nat.le_trans ?_ (Nat.le_add_right (d.fullStart j) (d.token j).leadingWidth)
  exact Nat.le_trans (d.span_stop_add (i := i) (by omega) ▸ Nat.le_add_right _ _) (d.fullStart_mono hij (by omega))

theorem gapStart_le (d : Document) {i j : Nat} (hij : i < j) (hj : j < d.size) :
    (d.span i).stop ≤ d.gapStart j := by
  cases j with
  | zero => omega
  | succ k =>
    rcases Nat.lt_or_eq_of_le (Nat.le_of_lt_succ hij) with hlt | rfl
    · exact Nat.le_trans (d.span_stop_le hlt (by omega)) (Nat.le_add_right _ _)
    · exact Nat.le_refl _

end Document

/-! ### Trivia in its place -/

theorem placeTrivia_length (token : Nat) (slot : Slot) (index offset : Nat) (ts : List Trivia) :
    (placeTrivia token slot index offset ts).length = ts.length := by
  induction ts generalizing index offset with
  | nil => rfl
  | cons t ts ih => rw [placeTrivia, List.length_cons, ih, List.length_cons]

theorem getElem?_placeTrivia (token : Nat) (slot : Slot) (index offset : Nat) (ts : List Trivia) (k : Nat) :
    (placeTrivia token slot index offset ts)[k]? = ts[k]?.map fun t =>
      { token, slot, index := index + k, trivia := t
        span := ⟨offset + Trivia.listWidth (ts.take k), offset + Trivia.listWidth (ts.take k) + t.width⟩ } := by
  induction ts generalizing index offset k with
  | nil => rfl
  | cons t ts ih =>
    cases k with
    | zero => rfl
    | succ k =>
      rw [placeTrivia, List.getElem?_cons_succ, ih, List.getElem?_cons_succ, List.take_succ_cons,
        Trivia.listWidth_cons, Nat.add_right_comm index 1 k]
      simp only [Nat.add_assoc]

namespace Document

variable {d : Document}

/-- How many pieces of a gap trail the token in front of it. -/
def split (d : Document) : Nat → Nat
  | 0 => 0
  | i + 1 => (d.token i).trailing.length

theorem length_gap (d : Document) (j : Nat) : (d.gap j).length = d.split j + (d.token j).leading.length := by
  cases j with
  | zero => exact (Nat.zero_add _).symm
  | succ j => exact List.length_append

/-- The piece with number `i` of the gap in front of token `j`, in its place. -/
def placeAt (d : Document) (j i : Nat) (t : Trivia) : PlacedTrivia where
  token := if i < d.split j then j - 1 else j
  slot := if i < d.split j then .trailing else .leading
  index := if i < d.split j then i else i - d.split j
  trivia := t
  span := ⟨d.gapStart j + Trivia.listWidth ((d.gap j).take i),
    d.gapStart j + Trivia.listWidth ((d.gap j).take i) + t.width⟩

/-- The trivia of a gap with its places. -/
def placed (d : Document) : Nat → List PlacedTrivia
  | 0 => d.slotTrivia 0 .leading
  | i + 1 => d.slotTrivia i .trailing ++ d.slotTrivia (i + 1) .leading

theorem getElem?_placed (d : Document) {j : Nat} (hj : j < d.size) (i : Nat) :
    (d.placed j)[i]? = (d.gap j)[i]?.map (d.placeAt j i) := by
  cases j with
  | zero =>
    rw [placed, slotTrivia, getElem?_placeTrivia]
    show (d.token 0).leading[i]?.map _ = (d.token 0).leading[i]?.map _
    congr 1
    funext t
    have hs : ¬ i < d.split 0 := Nat.not_lt_zero i
    simp only [slotStart, fullStart_zero, placeAt, if_neg hs, gapStart, gap, Nat.zero_add]
    rfl
  | succ k =>
    have hlen : (d.slotTrivia k .trailing).length = (d.token k).trailing.length := by
      rw [slotTrivia, placeTrivia_length]
      rfl
    rw [placed, gap]
    by_cases hi : i < (d.token k).trailing.length
    · rw [List.getElem?_append_left (by omega), List.getElem?_append_left hi, slotTrivia, getElem?_placeTrivia]
      show (d.token k).trailing[i]?.map _ = (d.token k).trailing[i]?.map _
      congr 1
      funext t
      have hs : i < d.split (k + 1) := hi
      simp only [placeAt, if_pos hs, gap, List.take_append_of_le_length (Nat.le_of_lt hi), Nat.zero_add]
      rfl
    · have hsub : (d.token k).trailing.length ≤ i := by omega
      rw [List.getElem?_append_right (by omega), List.getElem?_append_right hsub, hlen, slotTrivia,
        getElem?_placeTrivia]
      show (d.token (k + 1)).leading[i - _]?.map _ = (d.token (k + 1)).leading[i - _]?.map _
      congr 1
      funext t
      have hstart : d.slotStart (k + 1) .leading = (d.span k).stop + (d.token k).trailingWidth :=
        (d.span_stop_add (by omega)).symm
      have hs : ¬ i < d.split (k + 1) := hi
      simp only [placeAt, if_neg hs, gap, List.take_append, List.take_of_length_le hsub, hstart,
        Trivia.listWidth_append, gapStart, Nat.zero_add, ← Nat.add_assoc]
      rfl

theorem length_placed (d : Document) {j : Nat} (hj : j < d.size) : (d.placed j).length = (d.gap j).length := by
  have h := d.getElem?_placed hj
  rcases Nat.lt_trichotomy (d.placed j).length (d.gap j).length with hlt | heq | hgt
  · have := h (d.placed j).length
    rw [List.getElem?_eq_none (Nat.le_refl _), List.getElem?_eq_getElem hlt] at this
    cases this
  · exact heq
  · have := h (d.gap j).length
    rw [List.getElem?_eq_none (l := d.gap j) (Nat.le_refl _), List.getElem?_eq_getElem hgt] at this
    cases this

/-- **The trivia of a document, gap by gap.** -/
theorem Proper.trivia_eq (h : d.Proper) : d.trivia = (List.range d.size).flatMap d.placed := by
  have key : ∀ n ≤ d.size, (List.range n).flatMap d.tokenTrivia =
      (List.range n).flatMap d.placed ++ (if n = 0 then [] else d.slotTrivia (n - 1) .trailing) := by
    intro n
    induction n with
    | zero => exact fun _ => rfl
    | succ n ih =>
      intro hn
      rw [List.range_succ, List.flatMap_append, List.flatMap_append, ih (by omega)]
      simp only [List.flatMap_singleton, Nat.add_one_ne_zero, if_false, Nat.add_sub_cancel]
      cases n with
      | zero => simp [placed, tokenTrivia]
      | succ k => simp [placed, tokenTrivia]
  have hlast : d.slotTrivia (d.size - 1) .trailing = [] := by
    obtain ⟨ts, hts⟩ := h.last
    rw [slotTrivia, show d.size - 1 = d.endOfFile from rfl, hts]
    rfl
  have := key d.size (Nat.le_refl _)
  rw [if_neg (by have := d.size_pos; omega), hlast, List.append_nil] at this
  exact this

theorem mem_placed (d : Document) {j : Nat} (hj : j < d.size) {x : PlacedTrivia} :
    x ∈ d.placed j ↔ ∃ i t, (d.gap j)[i]? = some t ∧ x = d.placeAt j i t := by
  rw [List.mem_iff_getElem?]
  simp only [d.getElem?_placed hj, Option.map_eq_some_iff]
  exact ⟨fun ⟨i, t, ht, h⟩ => ⟨i, t, ht, h.symm⟩, fun ⟨i, t, ht, h⟩ => ⟨i, t, ht, h.symm⟩⟩

/-- A piece of a gap stands inside of it. -/
theorem placeAt_bounds (d : Document) {j : Nat} (hj : j < d.size) {i : Nat} {t : Trivia} (ht : (d.gap j)[i]? = some t) :
    d.gapStart j ≤ (d.placeAt j i t).span.start ∧ (d.placeAt j i t).span.stop ≤ (d.span j).start := by
  refine ⟨Nat.le_add_right _ _, ?_⟩
  rw [d.span_start hj]
  show d.gapStart j + Trivia.listWidth ((d.gap j).take i) + t.width ≤ _
  rw [Nat.add_assoc, ← Trivia.listWidth_take_succ ht]
  exact Nat.add_le_add_left (Trivia.listWidth_take_le _ _) _

theorem placeAt_stop (d : Document) {j i : Nat} {t : Trivia} (ht : (d.gap j)[i]? = some t) :
    (d.placeAt j i t).span.stop = d.gapStart j + Trivia.listWidth ((d.gap j).take (i + 1)) := by
  rw [Trivia.listWidth_take_succ ht, ← Nat.add_assoc]
  rfl

theorem listWidth_take_mono (g : List Trivia) {i j : Nat} (h : i ≤ j) :
    Trivia.listWidth (g.take i) ≤ Trivia.listWidth (g.take j) := by
  have := Trivia.listWidth_take_le (g.take j) i
  rwa [List.take_take, Nat.min_eq_left h] at this

/-- Where the piece with number `n` of a trivia list starts. -/
def pieceStart (d : Document) (id : Nat) (slot : Slot) (n : Nat) : Nat :=
  d.slotStart id slot + Trivia.listWidth (((d.token id).trivia slot).take n)

/-- The bytes that a splice takes away; for an insertion, the place where it puts something in. -/
def spliceSpan (d : Document) (s : Splice) : Span :=
  ⟨d.pieceStart s.token s.slot s.start, d.pieceStart s.token s.slot s.stop⟩

theorem pieceStart_mono (d : Document) (id : Nat) (slot : Slot) {m n : Nat} (h : m ≤ n) :
    d.pieceStart id slot m ≤ d.pieceStart id slot n :=
  Nat.add_le_add_left (listWidth_take_mono _ h) _

/-- A piece of a trivia list goes up to where the next one starts. -/
theorem getElem?_slotTrivia (d : Document) (id : Nat) (slot : Slot) (k : Nat) :
    (d.slotTrivia id slot)[k]? = ((d.token id).trivia slot)[k]?.map fun t =>
      { token := id, slot, index := k, trivia := t
        span := ⟨d.pieceStart id slot k, d.pieceStart id slot (k + 1)⟩ } := by
  rw [slotTrivia, getElem?_placeTrivia]
  refine Option.map_congr fun t ht => ?_
  rw [pieceStart, pieceStart, Trivia.listWidth_take_succ ht, Nat.zero_add, Nat.add_assoc]

theorem mem_slotTrivia (d : Document) {id : Nat} {slot : Slot} {x : PlacedTrivia} :
    x ∈ d.slotTrivia id slot ↔ ∃ k t, ((d.token id).trivia slot)[k]? = some t ∧
      x = ⟨id, slot, k, t, ⟨d.pieceStart id slot k, d.pieceStart id slot (k + 1)⟩⟩ := by
  rw [List.mem_iff_getElem?]
  simp only [d.getElem?_slotTrivia, Option.map_eq_some_iff]
  exact ⟨fun ⟨k, t, ht, h⟩ => ⟨k, t, ht, h.symm⟩, fun ⟨k, t, ht, h⟩ => ⟨k, t, ht, h.symm⟩⟩

theorem slotTrivia_bounds (d : Document) {id : Nat} {slot : Slot} {x : PlacedTrivia} (hx : x ∈ d.slotTrivia id slot) :
    d.slotStart id slot ≤ x.span.start ∧ x.span.start ≤ x.span.stop ∧
      x.span.stop ≤ d.slotStart id slot + Trivia.listWidth ((d.token id).trivia slot) := by
  obtain ⟨k, t, -, rfl⟩ := d.mem_slotTrivia.1 hx
  exact ⟨Nat.le_add_right _ _, d.pieceStart_mono id slot (Nat.le_succ k),
    Nat.add_le_add_left (Trivia.listWidth_take_le _ _) _⟩

theorem pairwise_slotTrivia (d : Document) (id : Nat) (slot : Slot) :
    (d.slotTrivia id slot).Pairwise fun x y => x.span.stop ≤ y.span.start := by
  rw [List.pairwise_iff_getElem]
  intro a b ha hb hab
  have hx := List.getElem?_eq_getElem ha
  have hy := List.getElem?_eq_getElem hb
  rw [getElem?_slotTrivia, Option.map_eq_some_iff] at hx hy
  obtain ⟨t, -, hx⟩ := hx
  obtain ⟨u, -, hy⟩ := hy
  rw [← hx, ← hy]
  exact d.pieceStart_mono id slot hab

/-- The trivia of a token stands in the token's region, in front of its word and behind it. -/
theorem tokenTrivia_bounds (d : Document) {id : Nat} (hid : id < d.size) {x : PlacedTrivia}
    (hx : x ∈ d.tokenTrivia id) :
    d.fullStart id ≤ x.span.start ∧ x.span.start ≤ x.span.stop ∧ x.span.stop ≤ d.fullStart (id + 1) := by
  have hadd := d.span_stop_add hid
  have hword := d.span_stop_eq id
  have hstart : (d.span id).start = d.fullStart id + (d.token id).leadingWidth := rfl
  rcases List.mem_append.1 hx with hx | hx
  · have hb := d.slotTrivia_bounds hx
    have h₁ : d.fullStart id ≤ x.span.start := hb.1
    have h₂ : x.span.stop ≤ d.fullStart id + (d.token id).leadingWidth := hb.2.2
    exact ⟨h₁, hb.2.1, by omega⟩
  · have hb := d.slotTrivia_bounds hx
    have h₁ : (d.span id).stop ≤ x.span.start := hb.1
    have h₂ : x.span.stop ≤ (d.span id).stop + (d.token id).trailingWidth := hb.2.2
    exact ⟨by omega, hb.2.1, by omega⟩

/-- **The trivia of a document stands one piece behind another.** -/
theorem pairwise_trivia (d : Document) : d.trivia.Pairwise fun x y => x.span.stop ≤ y.span.start := by
  rw [trivia, List.pairwise_flatMap]
  constructor
  · intro id _
    refine List.pairwise_append.2 ⟨d.pairwise_slotTrivia id _, d.pairwise_slotTrivia id _, fun x hx y hy => ?_⟩
    have hx' : x.span.stop ≤ (d.span id).start := (d.slotTrivia_bounds hx).2.2
    have hy' : (d.span id).stop ≤ y.span.start := (d.slotTrivia_bounds hy).1
    exact Nat.le_trans hx' (Nat.le_trans (Nat.le_add_right _ _) hy')
  · refine List.pairwise_lt_range.imp_of_mem ?_
    intro i j hi hj hij x hx y hy
    have hi := List.mem_range.1 hi
    have hj := List.mem_range.1 hj
    exact Nat.le_trans (d.tokenTrivia_bounds hi hx).2.2
      (Nat.le_trans (d.fullStart_mono hij (Nat.le_of_lt hj)) (d.tokenTrivia_bounds hj hy).1)

theorem mem_parts_of_mem_gap {j : Nat} {t : Trivia} (h : t ∈ d.gap j) : Piece.trivia t ∈ d.parts := by
  have key : ∀ i, t ∈ (d.token i).leading ∨ t ∈ (d.token i).trailing → Piece.trivia t ∈ d.parts := by
    intro i hi
    have hlt : i < d.size := by
      rcases Nat.lt_or_ge i d.size with hlt | hge
      · exact hlt
      · rw [token_of_size_le hge] at hi
        rcases hi with hi | hi <;> cases hi
    refine List.mem_flatMap.2 ⟨d.token i, ?_, ?_⟩
    · rw [d.token_eq_getElem hlt]
      exact Array.mem_toList_iff.2 (Array.getElem_mem _)
    · rw [Token.parts]
      rcases hi with hi | hi
      · exact List.mem_append_left _ (List.mem_append_left _ (List.mem_map_of_mem hi))
      · exact List.mem_append_right _ (List.mem_map_of_mem hi)
  cases j with
  | zero => exact key 0 (.inl h)
  | succ j =>
    rcases List.mem_append.1 h with h | h
    · exact key j (.inr h)
    · exact key (j + 1) (.inl h)

end Document

theorem Piece.Reads.ne_nil : ∀ {b : Bool} {ps : List Piece}, Reads b ps → ∀ p ∈ ps, p.chars ≠ []
  | _, _ :: _, h, _, hp => by
    rcases List.mem_cons.1 hp with rfl | hp
    · exact h.1
    · exact h.2.2.ne_nil _ hp

namespace Document

variable {d : Document}

theorem Parsed.width_pos (h : d.Parsed) {j : Nat} {t : Trivia} (ht : t ∈ d.gap j) : 0 < t.width := by
  rcases Nat.eq_zero_or_pos t.width with h0 | hpos
  · refine absurd ?_ (h.reads.ne_nil _ (mem_parts_of_mem_gap ht))
    show t.text.toList = []
    rw [String.utf8ByteSize_eq_zero_iff.1 h0]
    rfl
  · exact hpos

theorem listWidth_pos_of_getElem? (h : d.Parsed) {j i : Nat} {t : Trivia} (ht : (d.gap j)[i]? = some t) :
    Trivia.listWidth ((d.gap j).take i) < Trivia.listWidth ((d.gap j).take (i + 1)) := by
  rw [Trivia.listWidth_take_succ ht]
  exact Nat.lt_add_of_pos_right (h.width_pos (List.mem_of_getElem? ht))

theorem Parsed.listWidth_take_lt (h : d.Parsed) {j a b : Nat} (hab : a < b) (hb : b ≤ (d.gap j).length) :
    Trivia.listWidth ((d.gap j).take a) < Trivia.listWidth ((d.gap j).take b) := by
  have ha : a < (d.gap j).length := Nat.lt_of_lt_of_le hab hb
  exact Nat.lt_of_lt_of_le (listWidth_pos_of_getElem? h (List.getElem?_eq_getElem ha)) (listWidth_take_mono _ hab)

end Document

/-- An item in a list of which the others are away from it is all that a test finds that they fail. -/
theorem filter_eq_singleton {α : Type} {R : α → α → Prop} {p : α → Bool} {l : List α} {a : α} (hl : l.Pairwise R)
    (ha : a ∈ l) (hp : p a = true) (hother : ∀ x ∈ l, R x a ∨ R a x → p x = false) : l.filter p = [a] := by
  obtain ⟨l₁, l₂, rfl⟩ := List.append_of_mem ha
  rw [List.pairwise_append, List.pairwise_cons] at hl
  have h₁ : l₁.filter p = [] := List.filter_eq_nil_iff.2 fun x hx => by
    rw [hother x (List.mem_append_left _ hx) (.inl (hl.2.2 x hx a List.mem_cons_self))]
    exact Bool.false_ne_true
  have h₂ : l₂.filter p = [] := List.filter_eq_nil_iff.2 fun x hx => by
    rw [hother x (List.mem_append_right _ (List.mem_cons_of_mem _ hx)) (.inr (hl.2.1.1 x hx))]
    exact Bool.false_ne_true
  rw [List.filter_append, List.filter_cons_of_pos hp, h₁, h₂]
  rfl

theorem mem_takeWhile_range' {p : Nat → Bool} {n : Nat} : ∀ {first m : Nat}, first ≤ n → n < first + m →
    (∀ i, first ≤ i → i ≤ n → p i = true) → n ∈ (List.range' first m).takeWhile p
  | first, 0, h₁, h₂, _ => by omega
  | first, m + 1, h₁, h₂, hp => by
    rw [List.range'_succ, List.takeWhile_cons_of_pos (hp first (Nat.le_refl _) h₁)]
    rcases Nat.lt_or_eq_of_le h₁ with hlt | rfl
    · exact List.mem_cons_of_mem _
        (mem_takeWhile_range' hlt (by omega) fun i hi hin => hp i (by omega) hin)
    · exact List.mem_cons_self

namespace Document

variable {d : Document}

theorem lt_firstWhere_fullStart (d : Document) {offset i : Nat} (hi : i < d.size) :
    i < firstWhere (fun id => decide (offset < d.fullStart id)) 0 d.size ↔ d.fullStart i ≤ offset := by
  have := @lt_firstWhere_iff (fun id => decide (offset < d.fullStart id)) 0 d.size (fun a b _ hab hb ha => ?_) i
    (Nat.zero_le i) hi
  · rwa [decide_eq_false_iff_not, Nat.not_lt] at this
  · simp only [decide_eq_true_eq] at ha ⊢
    exact Nat.lt_of_lt_of_le ha (d.fullStart_mono hab (Nat.le_of_lt hb))

/-- **The token at an offset is the one token that has the byte there**, in its text or in its trivia. -/
theorem tokenAt_eq_iff (d : Document) {offset : Nat} (ho : offset < d.length) (i : Nat) :
    d.tokenAt offset = i ↔ i < d.size ∧ d.fullStart i ≤ offset ∧ offset < d.fullStart (i + 1) := by
  have hb := (le_firstWhere (fun id => decide (offset < d.fullStart id)) 0 d.size (Nat.zero_le _)).2
  have hpos := (d.lt_firstWhere_fullStart d.size_pos).2 (d.fullStart_zero ▸ Nat.zero_le offset)
  have hnext : ∀ {i}, i < d.size →
      (firstWhere (fun id => decide (offset < d.fullStart id)) 0 d.size ≤ i + 1 ↔ offset < d.fullStart (i + 1)) := by
    intro i hi
    rcases Nat.lt_or_eq_of_le (Nat.succ_le_of_lt hi) with hlt | heq
    · rw [← Nat.not_lt, d.lt_firstWhere_fullStart hlt, Nat.not_le]
    · rw [show i + 1 = d.size from heq, d.fullStart_size]
      exact iff_of_true hb ho
  rw [tokenAt, if_neg (Nat.not_le.2 ho)]
  constructor
  · rintro rfl
    have hi : firstWhere (fun id => decide (offset < d.fullStart id)) 0 d.size - 1 < d.size := by omega
    exact ⟨hi, (d.lt_firstWhere_fullStart hi).1 (by omega), (hnext hi).1 (by omega)⟩
  · rintro ⟨hi, hstart, hstop⟩
    have h₁ := (d.lt_firstWhere_fullStart hi).2 hstart
    have h₂ := (hnext hi).2 hstop
    omega

theorem tokenAt_le (d : Document) {offset i : Nat} (hi : i < d.size) (ho : offset < d.fullStart (i + 1)) :
    d.tokenAt offset ≤ i := by
  have hlen : d.fullStart (i + 1) ≤ d.length := d.fullStart_size ▸ d.fullStart_mono hi (Nat.le_refl _)
  obtain ⟨hlt, hstart, -⟩ := (d.tokenAt_eq_iff (Nat.lt_of_lt_of_le ho hlen) _).1 rfl
  by_contra hnot
  have hmono : d.fullStart (i + 1) ≤ _ := d.fullStart_mono (Nat.not_le.1 hnot) (Nat.le_of_lt hlt)
  omega

/-- A piece of a gap belongs to a token, inside of the token's region. -/
theorem exists_token_of_placed (d : Document) {j : Nat} (hj : j < d.size) {i : Nat} {t : Trivia}
    (ht : (d.gap j)[i]? = some t) : ∃ id < d.size, d.placeAt j i t ∈ d.tokenTrivia id ∧
      d.fullStart id ≤ (d.placeAt j i t).span.start ∧ (d.placeAt j i t).span.stop ≤ d.fullStart (id + 1) := by
  have hb := d.placeAt_bounds hj ht
  have hx := d.getElem?_placed hj i
  rw [ht, Option.map_some] at hx
  have hright : (d.placeAt j i t).span.stop ≤ d.fullStart (j + 1) := by
    refine Nat.le_trans hb.2 (Nat.le_trans (Nat.le_add_right _ (d.token j).textWidth) ?_)
    exact d.span_stop_add hj ▸ Nat.le_add_right _ _
  cases j with
  | zero =>
    exact ⟨0, hj, List.mem_append_left _ (List.mem_of_getElem? hx), by rw [d.fullStart_zero]; exact Nat.zero_le _,
      hright⟩
  | succ k =>
    have hk : k < d.size := by omega
    have hlen : (d.slotTrivia k .trailing).length = (d.token k).trailing.length := placeTrivia_length ..
    have hstart : (d.placeAt (k + 1) i t).span.start =
        (d.span k).stop + Trivia.listWidth ((d.gap (k + 1)).take i) := rfl
    have hstop : (d.placeAt (k + 1) i t).span.stop =
        (d.span k).stop + (Trivia.listWidth ((d.gap (k + 1)).take i) + t.width) := Nat.add_assoc ..
    have hadd := d.span_stop_add hk
    by_cases hi : i < (d.token k).trailing.length
    · rw [placed, List.getElem?_append_left (by omega)] at hx
      refine ⟨k, hk, List.mem_append_right _ (List.mem_of_getElem? hx), ?_, ?_⟩
      · exact Nat.le_trans (Nat.le_trans (Nat.le_add_right _ _) (Nat.le_add_right _ _)) hb.1
      · rw [hstop, ← hadd, ← Trivia.listWidth_take_succ ht, gap, List.take_append_of_le_length (by omega)]
        exact Nat.add_le_add_left (Trivia.listWidth_take_le _ _) _
    · rw [placed, List.getElem?_append_right (by omega)] at hx
      refine ⟨k + 1, hj, List.mem_append_left _ (List.mem_of_getElem? hx), ?_, hright⟩
      rw [hstart, ← hadd, gap, List.take_append, List.take_of_length_le (by omega), Trivia.listWidth_append,
        ← Nat.add_assoc]
      exact Nat.le_add_right _ _

/-- The trivia looked through from a token on is in the order of the text. -/
theorem tokenTrivia_sublist (d : Document) (first : Nat) (p : Nat → Bool) :
    (((List.range' first (d.size - first)).takeWhile p).flatMap d.tokenTrivia).Sublist d.trivia := by
  rw [trivia, List.range_eq_range']
  refine ((List.takeWhile_sublist _).trans ?_).flatMap _
  rw [show List.range' first (d.size - first) = (List.range' 0 d.size).drop first by
    rw [List.drop_range', Nat.zero_add, Nat.mul_one]]
  exact List.drop_sublist _ _

/-- **In the region of a piece of trivia stands no other piece.** -/
theorem triviaIn_piece (d : Document) {j : Nat} (hj : j < d.size) {i : Nat} {t : Trivia}
    (ht : (d.gap j)[i]? = some t) (hpos : 0 < t.width) {p : Trivia → Bool} (hp : p t = true) :
    d.triviaIn (d.placeAt j i t).span p = [d.placeAt j i t] := by
  have hstop : (d.placeAt j i t).span.stop = (d.placeAt j i t).span.start + t.width := rfl
  obtain ⟨id, hid, htoken, hlow, hhigh⟩ := d.exists_token_of_placed hj ht
  have hfirst : d.tokenAt (d.placeAt j i t).span.start ≤ id := d.tokenAt_le hid (by omega)
  refine filter_eq_singleton (d.pairwise_trivia.sublist (d.tokenTrivia_sublist _ _)) ?_ ?_ fun x hx hxt => ?_
  · refine List.mem_flatMap.2 ⟨id, mem_takeWhile_range' hfirst (by omega) ?_, htoken⟩
    intro k _ hk
    have := d.fullStart_mono hk (Nat.le_of_lt hid)
    simp only [decide_eq_true_eq]
    omega
  · have hne : (d.placeAt j i t).span.isEmpty = false := by
      rw [Span.isEmpty, beq_eq_false_iff_ne]
      omega
    simp only [hne, Span.covers, Nat.le_refl, decide_true, Bool.and_true, Bool.not_false]
    exact hp
  · obtain ⟨k, -, hk⟩ := List.mem_flatMap.1 hx
    have hle : x.span.start ≤ x.span.stop := by
      rcases List.mem_append.1 hk with hk | hk
      · exact (d.slotTrivia_bounds hk).2.1
      · exact (d.slotTrivia_bounds hk).2.1
    cases hc : !x.span.isEmpty && (d.placeAt j i t).span.covers x.span && p x.trivia with
    | false => rfl
    | true =>
      simp only [Bool.and_eq_true, Bool.not_eq_true', Span.isEmpty, beq_eq_false_iff_ne, Span.covers,
        decide_eq_true_eq] at hc
      omega

/-! ### Finding a token -/

theorem span_start_mono (d : Document) {i j : Nat} (hij : i ≤ j) (hj : j < d.size) :
    (d.span i).start ≤ (d.span j).start := by
  rcases Nat.lt_or_eq_of_le hij with hlt | rfl
  · exact Nat.le_trans (Nat.le_add_right _ _) (d.span_stop_le hlt hj)
  · exact Nat.le_refl _

theorem lt_tokenFrom_iff (d : Document) {offset i : Nat} (hi : i < d.endOfFile) :
    i < d.tokenFrom offset ↔ (d.span i).start < offset := by
  have hs := d.size_eq
  have := @lt_firstWhere_iff (fun id => decide (offset ≤ (d.span id).start)) 0 d.endOfFile
    (fun a b _ hab hb ha => ?_) _ (Nat.zero_le i) hi
  · rwa [decide_eq_false_iff_not, Nat.not_le] at this
  · simp only [decide_eq_true_eq] at ha ⊢
    exact Nat.le_trans ha (d.span_start_mono hab (by omega))

theorem tokenFrom_eq (d : Document) {offset j : Nat} (hj : j ≤ d.endOfFile)
    (hbefore : ∀ i < j, (d.span i).start < offset) (ho : offset ≤ (d.span j).start) : d.tokenFrom offset = j := by
  have hle : d.tokenFrom offset ≤ d.endOfFile := (le_firstWhere _ 0 d.endOfFile (Nat.zero_le _)).2
  rcases Nat.lt_trichotomy (d.tokenFrom offset) j with hlt | heq | hgt
  · exact absurd ((d.lt_tokenFrom_iff (by omega)).2 (hbefore _ hlt)) (Nat.lt_irrefl _)
  · exact heq
  · exact absurd ho (Nat.not_le.2 ((d.lt_tokenFrom_iff (by omega)).1 hgt))

theorem Proper.span_start_lt (h : d.Proper) {i : Nat} (hi : i < d.endOfFile) : (d.span i).start < (d.span i).stop :=
  Nat.lt_add_of_pos_right (h.textWidth_pos hi)

/-- The gap of a token ends in front of where that of a later one starts. -/
theorem Proper.gapStart_lt (h : d.Proper) {i j : Nat} (hij : i < j) (hj : j < d.size) :
    d.gapStart i + Trivia.listWidth (d.gap i) < d.gapStart j := by
  rw [← d.span_start (by omega)]
  have hs := d.size_eq
  exact Nat.lt_of_lt_of_le (h.span_start_lt (by omega)) (d.gapStart_le hij hj)

/-- The token after a gap is found from where the gap starts. -/
theorem Proper.tokenFrom_gapStart (h : d.Proper) {j : Nat} (hj : j ≤ d.endOfFile) : d.tokenFrom (d.gapStart j) = j := by
  have hs := d.size_eq
  have hlt : j < d.size := by omega
  refine d.tokenFrom_eq hj (fun i hi => ?_) (d.span_start hlt ▸ Nat.le_add_right _ _)
  exact Nat.lt_of_lt_of_le (h.span_start_lt (by omega)) (d.gapStart_le hi (by omega))

/-- A token is found from where it starts. -/
theorem Proper.tokenFrom_span_start (h : d.Proper) {j : Nat} (hj : j ≤ d.endOfFile) :
    d.tokenFrom (d.span j).start = j := by
  have hs := d.size_eq
  refine d.tokenFrom_eq hj (fun i hi => ?_) (Nat.le_refl _)
  exact Nat.lt_of_lt_of_le (h.span_start_lt (by omega)) (d.span_stop_le hi (by omega))

end Document

end LayoutLint
