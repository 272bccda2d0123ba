import LayoutLint.Proofs.Layout.Places
import LayoutLint.Scan.TrailingBlank
/-!
# Blanks — white space at the ends of lines, gap by gap

In the document of a text no white space stands directly behind other white space (`Apart`), so a run of it is one piece
of trivia. What the scan over all trivia reports is, gap by gap, the white space in front of a line break and, in the
last gap, the white space in front of the end of the text (`trailingBlanks_eq`).
-/
namespace LayoutLint

open Piece (Reads)

/-- No white space stands directly behind other white space. -/
def Apart : List Trivia → Prop
  | t :: u :: g => (t.isWhitespace = true → u.isWhitespace = false) ∧ Apart (u :: g)
  | _ => True

theorem Apart.tail {t : Trivia} {g : List Trivia} (h : Apart (t :: g)) : Apart g := by
  cases g with
  | nil => exact trivial
  | cons u g => exact h.2

/-- Does a line end in front of the trivia? `last` says that the text ends behind it. -/
def endsLine (last : Bool) : List Trivia → Bool
  | [] => last
  | t :: _ => t.isEndOfLine

/-- Is the piece in front of the trivia white space at the end of a line? -/
def isRun (last : Bool) (t : Trivia) (g : List Trivia) : Bool := t.isWhitespace && endsLine last g

/-- The regions of white space at the ends of lines, in trivia that starts at `offset`. -/
def runsIn (last : Bool) (offset : Nat) : List Trivia → List Span
  | [] => []
  | t :: g =>
    (if isRun last t g then [⟨offset, offset + t.width⟩] else []) ++ runsIn last (offset + t.width) g

/-- **What is white space at the end of a line.** -/
theorem mem_runsIn {last : Bool} {s : Span} : ∀ {n : Nat} {g : List Trivia}, s ∈ runsIn last n g ↔
    ∃ i t, g[i]? = some t ∧ isRun last t (g.drop (i + 1)) = true ∧
      s = ⟨n + Trivia.listWidth (g.take i), n + Trivia.listWidth (g.take i) + t.width⟩
  | offset, [] => by simp [runsIn]
  | offset, u :: g => by
    rw [runsIn, List.mem_append, mem_runsIn (n := offset + u.width)]
    constructor
    · rintro (h | ⟨i, t, ht, hr, rfl⟩)
      · split at h
        · rename_i hr
          exact ⟨0, u, rfl, hr, List.mem_singleton.1 h⟩
        · cases h
      · refine ⟨i + 1, t, ht, hr, ?_⟩
        rw [List.take_succ_cons, Trivia.listWidth_cons, Nat.add_assoc]
    · rintro ⟨i, t, ht, hr, rfl⟩
      cases i with
      | zero =>
        obtain rfl := Option.some.inj ht
        rw [List.drop_succ_cons, List.drop_zero] at hr
        rw [if_pos hr]
        exact .inl List.mem_cons_self
      | succ i =>
        refine .inr ⟨i, t, ht, hr, ?_⟩
        simp only [List.take_succ_cons, Trivia.listWidth_cons, Nat.add_assoc]

/-! ### Reading keeps white space apart -/

theorem Piece.Heads.not_isWhitespace {b : Bool} {t u : Trivia} {r : List Char}
    (h : (Piece.trivia t).Heads b (u.text.toList ++ r)) (ht : t.isWhitespace = true) {b' : Bool}
    (hu : (Piece.trivia u).Heads b' r) (hne : u.text.toList ≠ []) : u.isWhitespace = false := by
  have hs : Trivia.scan? b (t.text.toList ++ (u.text.toList ++ r)) = some (t.kind, t.text.toList.length) := h
  rw [show t.kind = .whitespace from beq_iff_eq.1 ht] at hs
  have hstop := (isGap_of_scan? hs).2
  rw [List.drop_left] at hstop
  obtain ⟨c, s, hc⟩ := List.exists_cons_of_ne_nil hne
  cases hw : u.isWhitespace with
  | false => rfl
  | true =>
    have hs' : Trivia.scan? b' (u.text.toList ++ r) = some (u.kind, u.text.toList.length) := hu
    rw [show u.kind = .whitespace from beq_iff_eq.1 hw] at hs'
    have hgap := (isGap_of_scan? hs').1 c
    rw [hc] at hstop hgap
    have := hstop c rfl
    rw [hgap (by simp)] at this
    cases this

theorem Piece.Reads.apart : ∀ {b : Bool} {ps : List Piece}, Reads b ps → ∀ g ∈ gapsOf ps, Apart g
  | _, [], _, g, hg => by
    obtain rfl := List.mem_singleton.1 hg
    exact trivial
  | _, .word k w :: ps, h, g, hg => by
    rcases List.mem_cons.1 hg with rfl | hg
    · exact trivial
    · exact h.2.2.apart g hg
  | _, .trivia t :: ps, h, g, hg => by
    have ih := h.2.2.apart
    rw [gapsOf_eq_cons ps] at ih
    rcases List.mem_cons.1 hg with rfl | hg
    · have hhead := ih _ List.mem_cons_self
      cases ps with
      | nil => exact trivial
      | cons p ps =>
        cases p with
        | word k w => exact trivial
        | trivia u => exact ⟨fun ht => h.2.1.not_isWhitespace ht h.2.2.2.1 h.2.2.1, hhead⟩
    · exact ih g (List.mem_cons_of_mem _ hg)

theorem Document.Parsed.apart {d : Document} (h : d.Parsed) (j : Nat) : Apart (d.gap j) := by
  rw [← h.proper.getD_gapsOf, List.getD_eq_getElem?_getD]
  cases hg : (Piece.gapsOf d.parts)[j]? with
  | none => exact trivial
  | some g => exact h.reads.apart g (List.mem_of_getElem? hg)

/-! ### The scan -/

/-- Trivia that stands one piece behind another from `offset` on. -/
def InPlace (offset : Nat) : List PlacedTrivia → List Trivia → Prop
  | [], [] => True
  | x :: xs, t :: g => x.trivia = t ∧ x.span = ⟨offset, offset + t.width⟩ ∧ InPlace (offset + t.width) xs g
  | _, _ => False

/-- The start of the white space that the trivia ends in; `run` when there is no trivia. -/
def openRun (run : Option Nat) (offset : Nat) : List Trivia → Option Nat
  | [] => run
  | t :: g => openRun (if t.isWhitespace then some offset else none) (offset + t.width) g

namespace BlankScan

/-- The runs that end where trivia follows that starts at `offset`. -/
def closedRun (s : BlankScan) (offset : Nat) (g : List Trivia) : List Span :=
  match s.run with
  | some start => if endsLine false g then [⟨start, offset⟩] else []
  | none => []

/-- The scan of trivia that stands behind the trivia scanned before. -/
theorem foldl_step {offset : Nat} {xs : List PlacedTrivia} {g : List Trivia} {s : BlankScan}
    (hx : InPlace offset xs g) (ha : Apart g) (hpos : ∀ t ∈ g, 0 < t.width) (hend : s.previousEnd = offset)
    (hrun : ∀ start, s.run = some start → start < offset ∧ ∀ t ∈ g.head?, t.isWhitespace = false) :
    xs.foldl step s = { run := openRun s.run offset g, previousEnd := offset + Trivia.listWidth g
                        found := (runsIn false offset g).reverse ++ s.closedRun offset g ++ s.found } := by
  induction g generalizing offset xs s with
  | nil =>
    cases xs with
    | cons x xs => exact hx.elim
    | nil =>
      obtain ⟨run, previousEnd, found⟩ := s
      obtain rfl := hend
      cases run <;> rfl
  | cons t g ih =>
    cases xs with
    | nil => exact hx.elim
    | cons x xs =>
      obtain ⟨rfl, hspan, hx⟩ := hx
      have hw : 0 < x.trivia.width := hpos _ List.mem_cons_self
      have hapart : x.trivia.isWhitespace = true → ∀ u ∈ g.head?, u.isWhitespace = false := by
        cases g with
        | nil => exact fun _ u hu => nomatch hu
        | cons u g => exact fun h v hv => Option.some.inj hv ▸ ha.1 h
      have hstep : s.step x = { run := if x.trivia.isWhitespace then some offset else none
                                previousEnd := offset + x.trivia.width
                                found := s.closedRun offset (x.trivia :: g) ++ s.found } := by
        obtain ⟨run, previousEnd, found⟩ := s
        obtain rfl := hend
        simp only [step, hspan]
        cases run with
        | none => simp [closedRun]
        | some start =>
          obtain ⟨hlt, hnot⟩ := hrun start rfl
          have hnot := hnot _ rfl
          by_cases he : x.trivia.isEndOfLine = true
          · simp [closedRun, endsLine, he, hnot, report, hlt]
          · simp [closedRun, endsLine, he, hnot]
      rw [List.foldl_cons, hstep, ih hx ha.tail (fun t ht => hpos t (List.mem_cons_of_mem _ ht)) rfl ?_]
      · simp only [openRun, runsIn, isRun, closedRun, Trivia.listWidth_cons, Nat.add_assoc]
        by_cases hws : x.trivia.isWhitespace = true
        · by_cases hl : endsLine false g = true <;> simp [hws, hl]
        · simp [hws]
      · intro start hstart
        dsimp only at hstart
        split at hstart
        · rename_i hws
          obtain rfl := Option.some.inj hstart
          exact ⟨by omega, hapart hws⟩
        · cases hstart

/-- The scan of a gap. A run in front of the token before it does not go on in it. -/
theorem foldl_step_gap {offset : Nat} {xs : List PlacedTrivia} {g : List Trivia} {s : BlankScan}
    (hx : InPlace offset xs g) (ha : Apart g) (hpos : ∀ t ∈ g, 0 < t.width) (hne : g ≠ [])
    (hrun : s.run = none ∨ s.previousEnd ≠ offset) :
    xs.foldl step s = { run := openRun none offset g, previousEnd := offset + Trivia.listWidth g
                        found := (runsIn false offset g).reverse ++ s.found } := by
  have hreset : xs.foldl step s = xs.foldl step { s with run := none, previousEnd := offset } := by
    cases g with
    | nil => exact absurd rfl hne
    | cons t g =>
      cases xs with
      | nil => exact hx.elim
      | cons x xs =>
        rw [List.foldl_cons, List.foldl_cons]
        congr 1
        obtain ⟨run, previousEnd, found⟩ := s
        simp only [step, hx.2.1]
        cases run with
        | none => rfl
        | some start =>
          rcases hrun with hrun | hrun
          · cases hrun
          · have : offset ≠ previousEnd := fun h => hrun h.symm
            simp [this]
  rw [hreset, foldl_step hx ha hpos rfl (by simp)]
  simp [closedRun]

end BlankScan

theorem openRun_append (run : Option Nat) (offset : Nat) (g : List Trivia) (t : Trivia) :
    openRun run offset (g ++ [t]) = if t.isWhitespace then some (offset + Trivia.listWidth g) else none := by
  induction g generalizing run offset with
  | nil => rfl
  | cons u g ih => rw [List.cons_append, openRun, ih, Trivia.listWidth_cons, Nat.add_assoc]

theorem runsIn_append (last : Bool) (offset : Nat) (g : List Trivia) (t : Trivia) :
    runsIn last offset (g ++ [t]) = runsIn (t.isEndOfLine) offset g ++
      if t.isWhitespace && last then
        [⟨offset + Trivia.listWidth g, offset + Trivia.listWidth g + t.width⟩] else [] := by
  induction g generalizing offset with
  | nil => simp [runsIn, isRun, endsLine]
  | cons u g ih =>
    have hends : endsLine last (g ++ [t]) = endsLine t.isEndOfLine g := by cases g <;> rfl
    rw [List.cons_append, runsIn, ih, runsIn, isRun, isRun, hends, Trivia.listWidth_cons, List.append_assoc]
    simp only [Nat.add_assoc]

/-- At the end of the text a run that is open ends. -/
theorem runsIn_last (offset : Nat) (g : List Trivia) : runsIn true offset g = runsIn false offset g ++
    match openRun none offset g with
    | some start => [⟨start, offset + Trivia.listWidth g⟩]
    | none => [] := by
  rcases List.eq_nil_or_concat g with rfl | ⟨g, t, rfl⟩
  · rfl
  · rw [List.concat_eq_append, runsIn_append, runsIn_append, openRun_append, Trivia.listWidth_append]
    cases t.isWhitespace <;> simp [Nat.add_assoc]

/-! ### Documents -/

namespace Document

variable {d : Document}

theorem inPlace_of_getElem? {offset : Nat} {xs : List PlacedTrivia} {g : List Trivia}
    (h : ∀ i, (xs[i]?).map (fun x => (x.trivia, x.span)) =
      (g[i]?).map fun t => (t, (⟨offset + Trivia.listWidth (g.take i),
        offset + Trivia.listWidth (g.take i) + t.width⟩ : Span))) : InPlace offset xs g := by
  induction g generalizing offset xs with
  | nil =>
    cases xs with
    | nil => exact trivial
    | cons x xs => cases h 0
  | cons t g ih =>
    cases xs with
    | nil => cases h 0
    | cons x xs =>
      have h0 := Option.some.inj (h 0)
      rw [Prod.mk.injEq] at h0
      refine ⟨h0.1, h0.2, ih fun i => ?_⟩
      have := h (i + 1)
      simp only [List.getElem?_cons_succ, List.take_succ_cons, Trivia.listWidth_cons, ← Nat.add_assoc] at this
      exact this

theorem inPlace_placed (d : Document) {j : Nat} (hj : j < d.size) : InPlace (d.gapStart j) (d.placed j) (d.gap j) := by
  refine inPlace_of_getElem? fun i => ?_
  rw [d.getElem?_placed hj, Option.map_map]
  rfl

/-- The scan of the gaps in front of the first `n` tokens. -/
theorem Parsed.foldl_step (h : d.Parsed) {n : Nat} (hn : n < d.size) :
    (((List.range n).flatMap d.placed).foldl BlankScan.step {}).found.reverse =
      (List.range n).flatMap (fun j => runsIn false (d.gapStart j) (d.gap j)) ∧
    ((((List.range n).flatMap d.placed).foldl BlankScan.step {}).run = none ∨
      (((List.range n).flatMap d.placed).foldl BlankScan.step {}).previousEnd < d.gapStart n) := by
  induction n with
  | zero => exact ⟨rfl, .inl rfl⟩
  | succ n ih =>
    have hn' : n < d.size := by omega
    obtain ⟨hfound, hrun⟩ := ih hn'
    have hstart := d.span_start hn'
    have hlt : (d.span n).start < d.gapStart (n + 1) := h.proper.span_start_lt (by have := d.size_eq; omega)
    simp only [List.range_succ, List.flatMap_append, List.flatMap_singleton, List.foldl_append]
    by_cases hg : d.gap n = []
    · have hp : d.placed n = [] := by
        rw [List.eq_nil_iff_length_eq_zero, d.length_placed hn', hg, List.length_nil]
      rw [hp, hg]
      simp only [List.foldl_nil, runsIn, List.append_nil]
      exact ⟨hfound, hrun.imp_right fun h => by omega⟩
    · rw [BlankScan.foldl_step_gap (d.inPlace_placed hn') (h.apart n) (fun t ht => h.width_pos ht) hg
        (hrun.imp_right Nat.ne_of_lt), ← hstart]
      refine ⟨?_, .inr hlt⟩
      rw [List.reverse_append, List.reverse_reverse, hfound]

/-- **The white space at the ends of lines, gap by gap.** -/
theorem Parsed.trailingBlanks_eq (h : d.Parsed) :
    d.trailingBlanks = (List.range d.size).flatMap fun j =>
      runsIn (j == d.endOfFile) (d.gapStart j) (d.gap j) := by
  have hs := d.size_eq
  have he : d.endOfFile < d.size := by omega
  obtain ⟨hfound, hrun⟩ := h.foldl_step he
  have hend : d.gapStart d.endOfFile + Trivia.listWidth (d.gap d.endOfFile) = d.length := by
    rw [← d.span_start he, h.proper.span_endOfFile]
  have hfront : (List.range d.endOfFile).flatMap (fun j => runsIn (j == d.endOfFile) (d.gapStart j) (d.gap j)) =
      (List.range d.endOfFile).flatMap fun j => runsIn false (d.gapStart j) (d.gap j) := by
    rw [List.flatMap_def, List.flatMap_def]
    congr 1
    refine List.map_congr_left fun j hj => ?_
    rw [beq_eq_false_iff_ne.2 (Nat.ne_of_lt (List.mem_range.1 hj))]
  rw [trailingBlanks, h.proper.trivia_eq, hs, List.range_succ, List.flatMap_append, List.flatMap_append, hfront,
    List.flatMap_singleton, List.flatMap_singleton, beq_self_eq_true, runsIn_last, hend, List.foldl_append]
  by_cases hg : d.gap d.endOfFile = []
  · have hp : d.placed d.endOfFile = [] := by
      rw [List.eq_nil_iff_length_eq_zero, d.length_placed he, hg, List.length_nil]
    rw [hg, Trivia.listWidth_nil, Nat.add_zero] at hend
    rw [hp, hg, List.foldl_nil]
    simp only [runsIn, openRun, List.append_nil]
    rw [← hfound]
    split
    · rename_i start hsome
      rcases hrun with hrun | hrun
      · rw [hsome] at hrun
        cases hrun
      · rw [if_neg (by omega)]
    · rfl
  · rw [BlankScan.foldl_step_gap (d.inPlace_placed he) (h.apart _) (fun t ht => h.width_pos ht) hg
      (hrun.imp_right Nat.ne_of_lt), hend]
    dsimp only
    cases ho : openRun none (d.gapStart d.endOfFile) (d.gap d.endOfFile) with
    | none => simp [hfound]
    | some start =>
      have hlt : start < d.length := by
        obtain ⟨g, t, hgt⟩ := (List.eq_nil_or_concat (d.gap d.endOfFile)).resolve_left hg
        rw [List.concat_eq_append] at hgt
        have hpos := h.width_pos (j := d.endOfFile) (t := t) (by rw [hgt]; simp)
        rw [hgt, openRun_append] at ho
        rw [hgt, Trivia.listWidth_append, Trivia.listWidth_cons] at hend
        split at ho
        · have := Option.some.inj ho
          omega
        · cases ho
      simp [hfound, BlankScan.report, hlt]

theorem Parsed.mem_trailingBlanks (h : d.Parsed) {s : Span} : s ∈ d.trailingBlanks ↔ ∃ j < d.size, ∃ i t,
    (d.gap j)[i]? = some t ∧ isRun (j == d.endOfFile) t ((d.gap j).drop (i + 1)) = true ∧
      s = (d.placeAt j i t).span := by
  rw [h.trailingBlanks_eq, List.mem_flatMap]
  constructor
  · rintro ⟨j, hj, hs⟩
    exact ⟨j, List.mem_range.1 hj, mem_runsIn.1 hs⟩
  · rintro ⟨j, hj, hs⟩
    exact ⟨j, List.mem_range.2 hj, mem_runsIn.2 hs⟩

end Document

end LayoutLint
