import LayoutLint.Proofs.Layout.Removals
import LayoutLint.Proofs.Layout.Substitution
import Mathlib.Data.List.Perm.Subperm
/-!
# Removed — just the selected trivia is removed

Trivia inside a region is looked for from the token at its start up to the first token that starts behind it. No piece
that has text, lies in the region and passes the test stands anywhere else (`Document.triviaIn_eq`). A piece that is
removed makes the last run longer or starts a new one, so the runs that are taken away hold the pieces that were given
and no others (`Splice.taken_removing`), the pieces in between included, which have no text. The document takes these
splices, and is then what it was without the pieces (`Document.removeTriviaIn_removes`).
-/
namespace LayoutLint

/-! ### Looking for trivia -/

/-- Does the piece have text, lie in the region and pass the test? -/
def PlacedTrivia.isIn (span : Span) (p : Trivia → Bool) (x : PlacedTrivia) : Bool :=
  !x.span.isEmpty && span.covers x.span && p x.trivia

theorem PlacedTrivia.isIn_iff {span : Span} {p : Trivia → Bool} {x : PlacedTrivia} : x.isIn span p = true ↔
    x.span.isEmpty = false ∧ (span.start ≤ x.span.start ∧ x.span.stop ≤ span.stop) ∧ p x.trivia = true := by
  rw [isIn, Bool.and_eq_true, Bool.and_eq_true, Bool.not_eq_true', Span.covers, Bool.and_eq_true, decide_eq_true_eq,
    decide_eq_true_eq, and_assoc]

namespace Document

variable {d : Document} {span : Span} {p : Trivia → Bool} {x : PlacedTrivia}

/-- **The search goes over every token that has trivia in the region.** -/
theorem mem_triviaIn_of_isIn (d : Document) {id : Nat} (hid : id < d.size) (hx : x ∈ d.tokenTrivia id)
    (hin : x.isIn span p = true) : x ∈ d.triviaIn span p := by
  obtain ⟨hpos, ⟨hstart, hstop⟩, -⟩ := PlacedTrivia.isIn_iff.1 hin
  obtain ⟨hlow, hle, hhigh⟩ := d.tokenTrivia_bounds hid hx
  rw [Span.isEmpty, beq_eq_false_iff_ne] at hpos
  have hfirst : d.tokenAt span.start ≤ id := d.tokenAt_le hid (by omega)
  refine List.mem_filter.2 ⟨List.mem_flatMap.2 ⟨id, mem_takeWhile_range' hfirst (by omega) fun i _ hi => ?_, hx⟩, hin⟩
  have := d.fullStart_mono hi (Nat.le_of_lt hid)
  exact decide_eq_true (by omega)

/-- **The search finds each selected piece of the document**, in the order of the text. -/
theorem triviaIn_eq (d : Document) (span : Span) (p : Trivia → Bool) :
    d.triviaIn span p = d.trivia.filter (·.isIn span p) := by
  have hsub : (d.triviaIn span p).Sublist (d.trivia.filter (·.isIn span p)) := (d.tokenTrivia_sublist _ _).filter _
  have hnodup : (d.trivia.filter (·.isIn span p)).Nodup := by
    refine (d.pairwise_trivia.filter _).imp_of_mem fun {x y} hx _ hle heq => ?_
    obtain ⟨hx, hin⟩ := List.mem_filter.1 hx
    have hpos := (PlacedTrivia.isIn_iff.1 hin).1
    have hstart := d.tiled.ordered x hx
    rw [Span.isEmpty, beq_eq_false_iff_ne] at hpos
    rw [← heq] at hle
    omega
  refine hsub.eq_of_length_le (List.subperm_of_subset hnodup fun x hx => ?_).length_le
  obtain ⟨hx, hin⟩ := List.mem_filter.1 hx
  obtain ⟨id, hid, hx⟩ := List.mem_flatMap.1 hx
  exact d.mem_triviaIn_of_isIn (List.mem_range.1 hid) hx hin

end Document

/-! ### Runs of pieces -/

/-- Is it the same place of the same trivia list? -/
def PlacedTrivia.SamePlace (x y : PlacedTrivia) : Prop := x.token = y.token ∧ x.slot = y.slot ∧ x.index = y.index

namespace Splice

variable {s : Splice} {done : List Splice} {p x : PlacedTrivia} {ps : List PlacedTrivia}

/-- Does the splice take the piece away? -/
def TakesPiece (s : Splice) (x : PlacedTrivia) : Prop := s.token = x.token ∧ s.slot = x.slot ∧ s.takes x.index = true

theorem takesPiece_iff :
    s.TakesPiece x ↔ s.token = x.token ∧ s.slot = x.slot ∧ s.start ≤ x.index ∧ x.index < s.stop := by
  rw [TakesPiece, takes, Bool.and_eq_true, decide_eq_true_eq, decide_eq_true_eq]

theorem takesPiece_one : TakesPiece ⟨p.token, p.slot, p.index, p.index + 1, []⟩ x ↔ p.SamePlace x := by
  rw [takesPiece_iff, PlacedTrivia.SamePlace]
  refine and_congr_right fun _ => and_congr_right fun _ => ?_
  dsimp only
  omega

/-- A run with one more piece. -/
theorem takesPiece_longer (hle : s.start ≤ s.stop) (htoken : s.token = p.token) (hslot : s.slot = p.slot)
    (hstop : s.stop = p.index) : TakesPiece { s with stop := s.stop + 1 } x ↔ s.TakesPiece x ∨ p.SamePlace x := by
  rw [takesPiece_iff, takesPiece_iff, PlacedTrivia.SamePlace, ← htoken, ← hslot, ← and_or_left, ← and_or_left]
  refine and_congr_right fun _ => and_congr_right fun _ => ?_
  dsimp only
  omega

theorem start_le_of_mem_alsoRemove (hdone : ∀ s ∈ done, s.start ≤ s.stop) :
    ∀ s ∈ alsoRemove done p, s.start ≤ s.stop := by
  cases done with
  | nil => exact fun s hs => List.mem_singleton.1 hs ▸ Nat.le_succ _
  | cons t rest =>
    intro s hs
    rw [alsoRemove] at hs
    split at hs
    · rcases List.mem_cons.1 hs with rfl | hs
      · exact Nat.le_succ_of_le (hdone t List.mem_cons_self)
      · exact hdone s (List.mem_cons_of_mem t hs)
    · rcases List.mem_cons.1 hs with rfl | hs
      · exact Nat.le_succ _
      · exact hdone s hs

/-- **One more piece is taken**, in the last run or in one of its own. -/
theorem taken_alsoRemove (hdone : ∀ s ∈ done, s.start ≤ s.stop) :
    (∃ s ∈ alsoRemove done p, s.TakesPiece x) ↔ (∃ s ∈ done, s.TakesPiece x) ∨ p.SamePlace x := by
  cases done with
  | nil => simp only [alsoRemove, List.mem_singleton, exists_eq_left, List.not_mem_nil, false_and, exists_false,
      false_or, takesPiece_one]
  | cons t rest =>
    rw [alsoRemove]
    split
    · rename_i hnext
      obtain ⟨htoken, hslot, hstop⟩ := hnext
      rw [List.exists_mem_cons_iff, List.exists_mem_cons_iff,
        takesPiece_longer (hdone t List.mem_cons_self) htoken hslot hstop, or_right_comm]
    · rw [List.exists_mem_cons_iff, takesPiece_one, or_comm]

/-- **The splices take the pieces that were given, and no others.** -/
theorem taken_removing : (∃ s ∈ removing ps, s.TakesPiece x) ↔ ∃ p ∈ ps, p.SamePlace x := by
  have key : ∀ {ps : List PlacedTrivia} {done : List Splice}, (∀ s ∈ done, s.start ≤ s.stop) →
      ((∃ s ∈ ps.foldl alsoRemove done, s.TakesPiece x) ↔ (∃ s ∈ done, s.TakesPiece x) ∨ ∃ p ∈ ps, p.SamePlace x) := by
    intro ps
    induction ps with
    | nil => exact fun _ => by simp only [List.foldl_nil, List.not_mem_nil, false_and, exists_false, or_false]
    | cons p ps ih =>
      intro done hdone
      rw [List.foldl_cons, ih (start_le_of_mem_alsoRemove hdone), taken_alsoRemove hdone, List.exists_mem_cons_iff,
        or_assoc]
  have hall := @key ps [] fun s hs => absurd hs List.not_mem_nil
  simpa only [removing, List.mem_reverse, List.not_mem_nil, false_and, exists_false, false_or] using hall

/-- Where only pieces are taken away, the others stand. -/
theorem standing_of_none {ss : List Splice} (hnone : ∀ s ∈ ss, s.replacement = []) (ts : List Trivia) (k : Nat) :
    standing ss ts k = if ss.any (·.takes k) then [] else ts[k]?.toList := by
  have hput : (ss.filter (·.start == k)).flatMap (·.replacement) = [] :=
    List.flatMap_eq_nil_iff.2 fun s hs => hnone s (List.mem_of_mem_filter hs)
  rw [standing, hput, List.nil_append]

end Splice

/-! ### The document without the pieces -/

/-- What passes a test, place by place. -/
theorem filter_eq_flatMap_range {α : Type} (q : α → Bool) : ∀ l : List α,
    l.filter q = (List.range (l.length + 1)).flatMap fun k => (l[k]?.filter q).toList
  | [] => rfl
  | a :: l => by
    rw [List.length_cons, List.range_succ_eq_map, List.flatMap_cons, List.flatMap_map, List.filter_cons,
      filter_eq_flatMap_range q l, List.getElem?_cons_zero, Option.filter_some]
    simp only [List.getElem?_cons_succ]
    split <;> rfl

namespace Document

variable {d e : Document} {ss : List Splice} {q : PlacedTrivia → Bool} {x y : PlacedTrivia}

/-- A document has one piece at a place. -/
theorem samePlace_iff (d : Document) (hx : x ∈ d.trivia) (hy : y ∈ d.trivia) : x.SamePlace y ↔ x = y := by
  refine ⟨fun ⟨htoken, hslot, hindex⟩ => ?_, fun h => h ▸ ⟨rfl, rfl, rfl⟩⟩
  obtain ⟨-, ht, hspan⟩ := d.placed_of_mem_trivia hx
  obtain ⟨-, ht', hspan'⟩ := d.placed_of_mem_trivia hy
  rw [htoken, hslot, hindex] at ht hspan
  have htrivia := Option.some.inj (ht.symm.trans ht')
  obtain ⟨_, _, _, _, _⟩ := x
  obtain ⟨_, _, _, _, _⟩ := y
  simp only [PlacedTrivia.mk.injEq]
  exact ⟨htoken, hslot, hindex, htrivia, hspan.trans hspan'.symm⟩

/-- The document without the pieces that pass the test: the words are kept, and of every list the other pieces. -/
structure Without (d : Document) (q : PlacedTrivia → Bool) (e : Document) : Prop where
  size : e.size = d.size
  word : ∀ id < d.size, (e.token id).kind = (d.token id).kind ∧ (e.token id).text = (d.token id).text ∧
    (e.token id).missing = (d.token id).missing
  list : ∀ id < d.size, ∀ slot, (e.token id).trivia slot = ((d.slotTrivia id slot).filter fun x => !q x).map (·.trivia)

/-- **Splices that only take pieces away** leave the document without them. -/
theorem without_of_splice (h : d.splice ss = .ok e) (hnone : ∀ s ∈ ss, s.replacement = [])
    (htaken : ∀ x ∈ d.trivia, (∃ s ∈ ss, s.TakesPiece x) ↔ q x = true) : d.Without q e := by
  have hmade := substitutes h
  refine ⟨hmade.size, hmade.word, fun id hid slot => ?_⟩
  have hlength : (d.slotTrivia id slot).length = ((d.token id).trivia slot).length := placeTrivia_length ..
  rw [hmade.list id hid slot, Splice.substitute, filter_eq_flatMap_range _ (d.slotTrivia id slot), hlength,
    List.map_flatMap]
  refine List.flatMap_congr fun k _ => ?_
  rw [Splice.standing_of_none fun s hs => hnone s (List.mem_of_mem_filter (List.mem_of_mem_filter hs)),
    d.getElem?_slotTrivia]
  cases ht : ((d.token id).trivia slot)[k]? with
  | none => exact ite_self _
  | some t =>
    let x : PlacedTrivia := ⟨id, slot, k, t, ⟨d.pieceStart id slot k, d.pieceStart id slot (k + 1)⟩⟩
    have hx : x ∈ d.trivia := d.mem_trivia.2 ⟨id, hid, slot, d.mem_slotTrivia.2 ⟨k, t, ht, rfl⟩⟩
    have hany : ((ss.filter (·.token == id)).filter (·.slot == slot)).any (·.takes k) = q x := by
      rw [Bool.eq_iff_iff, ← htaken x hx, List.any_eq_true]
      simp only [x, List.mem_filter, beq_iff_eq, Splice.TakesPiece, and_assoc]
    rw [hany, Option.map_some, Option.filter_some, show (⟨id, slot, k, t, _⟩ : PlacedTrivia) = x from rfl]
    cases q x <;> rfl

/-- **Removing trivia inside a region removes just the pieces that have text, lie in the region and pass the test**: the
search finds each of them, the splices put nothing in and take these pieces and no others, and the document takes the
splices and is then without the pieces. -/
theorem removeTriviaIn_removes (d : Document) (span : Span) (p : Trivia → Bool) :
    d.triviaIn span p = d.trivia.filter (·.isIn span p) ∧
    (∀ s ∈ d.removeTriviaIn span p, s.Removes d) ∧
    (∀ x ∈ d.trivia, (∃ s ∈ d.removeTriviaIn span p, s.TakesPiece x) ↔ x.isIn span p = true) ∧
    ∃ e, d.splice (d.removeTriviaIn span p) = .ok e ∧ d.Without (·.isIn span p) e := by
  have hfound := d.triviaIn_eq span p
  have hsub : (d.triviaIn span p).Sublist d.trivia := d.triviaIn_sublist span p
  have hpos : ∀ x ∈ d.triviaIn span p, x.span.isEmpty = false := fun x hx => by
    rw [hfound] at hx
    exact (PlacedTrivia.isIn_iff.1 (List.mem_filter.1 hx).2).1
  have hremoves : ∀ s ∈ d.removeTriviaIn span p, s.Removes d := d.removes_of_mem_removing hsub hpos
  have htaken : ∀ x ∈ d.trivia, (∃ s ∈ d.removeTriviaIn span p, s.TakesPiece x) ↔ x.isIn span p = true := by
    intro x hx
    rw [removeTriviaIn, Splice.taken_removing]
    constructor
    · rintro ⟨y, hy, hplace⟩
      rw [d.samePlace_iff (hsub.subset hy) hx] at hplace
      rw [hfound] at hy
      exact hplace ▸ (List.mem_filter.1 hy).2
    · exact fun hin => ⟨x, hfound ▸ List.mem_filter.2 ⟨hx, hin⟩, rfl, rfl, rfl⟩
  obtain ⟨e, he, -⟩ := d.exists_splice_removing hsub hpos
  exact ⟨hfound, hremoves, htaken, e, he, without_of_splice he (fun s hs => (hremoves s hs).none) htaken⟩

/-- A piece without text parts two that are removed, and stays. -/
example : ((ofTokens #[{ kind := .identifier, text := "a", trailing := [.space, .whitespace "", .space] },
    .endOfFile]).toOption.map fun d => d.removeTriviaIn ⟨1, 3⟩ Trivia.isWhitespace) =
      some [⟨0, .trailing, 0, 1, []⟩, ⟨0, .trailing, 2, 3, []⟩] := by
  decide +kernel

end Document

end LayoutLint
