import Mathlib.Data.List.Sort
/-!
# Sorting — lists in order, and lists without repetitions

A stable sort of a list does the same as insertion, item by item, for any order in which all items can be compared
(`stable_mergeSort_eq_insertionSort`); so a sort can be evaluated where the recursion of a merge cannot be opened.
Erasing what repeats the item in front of it keeps every item of a list (`mem_eraseReps`), and leaves a list in order
with no two items alike (`pairwise_eraseReps`).
-/
namespace LayoutLint

variable {α : Type}

/-! ### Sorting by insertion -/

theorem orderedInsert_append {r : α → α → Prop} [DecidableRel r] {a : α} {front back : List α}
    (hfront : ∀ b ∈ front, ¬ r a b) (hback : ∀ b ∈ back, r a b) :
    (front ++ back).orderedInsert r a = front ++ a :: back := by
  induction front with
  | nil =>
    cases back with
    | nil => rfl
    | cons b back => exact List.orderedInsert_cons_of_le r back (hback b List.mem_cons_self)
  | cons b front ih =>
    rw [List.cons_append, List.orderedInsert_of_not_le r _ (hfront b List.mem_cons_self),
      ih fun c hc => hfront c (List.mem_cons_of_mem _ hc), List.cons_append]

/-- **A stable sort does what insertion does**, also where different items are alike in the order. -/
theorem stable_mergeSort_eq_insertionSort {le : α → α → Bool}
    (htrans : ∀ a b c, le a b = true → le b c = true → le a c = true) (htotal : ∀ a b, (le a b || le b a) = true)
    (l : List α) : l.mergeSort le = l.insertionSort fun a b => le a b = true := by
  induction l with
  | nil => rw [List.mergeSort_nil, List.insertionSort_nil]
  | cons a l ih =>
    obtain ⟨front, back, hcons, hl, hfront⟩ := List.mergeSort_cons htrans htotal a l
    have hsorted := List.pairwise_mergeSort htrans htotal (a :: l)
    rw [hcons] at hsorted
    have hback := (List.pairwise_cons.1 (List.pairwise_append.1 hsorted).2.1).1
    rw [List.insertionSort_cons, ← ih, hl, hcons]
    exact (orderedInsert_append (fun b hb => by simpa using hfront b hb) hback).symm

/-! ### Lists without repetitions -/

theorem eraseReps_cons_cons [BEq α] (a b : α) (l : List α) :
    (a :: b :: l).eraseReps = if a == b then (a :: l).eraseReps else a :: (b :: l).eraseReps := by
  have key : ∀ (l : List α) (b : α) (acc : List α),
      List.eraseRepsBy.loop (· == ·) b l acc = acc.reverse ++ List.eraseRepsBy.loop (· == ·) b l [] := by
    intro l
    induction l with
    | nil =>
      intro b acc
      simp only [List.eraseRepsBy.loop, List.reverse_cons, List.reverse_nil, List.nil_append]
    | cons c l ih =>
      intro b acc
      rw [List.eraseRepsBy.loop, List.eraseRepsBy.loop]
      split
      · exact ih b acc
      · rw [ih c (b :: acc), ih c [b], List.reverse_cons, List.append_assoc]
        rfl
  rw [List.eraseReps, List.eraseRepsBy, List.eraseRepsBy.loop]
  split
  · rename_i hab
    rw [if_pos hab]
    rfl
  · rename_i hab
    rw [if_neg (Bool.eq_false_iff.1 hab), key l b [a]]
    rfl

/-- Erasing repetitions keeps every item. -/
theorem mem_eraseReps [BEq α] [LawfulBEq α] {a : α} : ∀ l : List α, a ∈ l.eraseReps ↔ a ∈ l
  | [] => Iff.rfl
  | [_] => Iff.rfl
  | b :: c :: l => by
    rw [eraseReps_cons_cons]
    split
    · rename_i hbc
      rw [mem_eraseReps (b :: l), beq_iff_eq.1 hbc, List.mem_cons, List.mem_cons, List.mem_cons, or_self_left]
    · rw [List.mem_cons, mem_eraseReps (c :: l), List.mem_cons (b := b)]

/-- What is left of a list in order once repetitions are erased has no two items alike. -/
theorem pairwise_eraseReps [BEq α] [LawfulBEq α] {le : α → α → Prop} : ∀ {l : List α},
    (∀ a ∈ l, ∀ b ∈ l, le a b → le b a → a = b) → l.Pairwise le → l.eraseReps.Pairwise fun a b => le a b ∧ a ≠ b
  | [], _, _ => .nil
  | [a], _, _ => List.pairwise_singleton _ a
  | a :: b :: l, hanti, hle => by
    obtain ⟨ha, hrest⟩ := List.pairwise_cons.1 hle
    rw [eraseReps_cons_cons]
    split
    · have hsub : (a :: l).Sublist (a :: b :: l) := (List.sublist_cons_self b l).cons_cons a
      exact pairwise_eraseReps (fun x hx y hy => hanti x (hsub.subset hx) y (hsub.subset hy)) (hle.sublist hsub)
    · rename_i hab
      rw [beq_iff_eq] at hab
      have ih := pairwise_eraseReps (fun x hx y hy => hanti x (List.mem_cons_of_mem _ hx) y (List.mem_cons_of_mem _ hy))
        hrest
      refine List.pairwise_cons.2 ⟨fun y hy => ?_, ih⟩
      rw [mem_eraseReps] at hy
      refine ⟨ha y hy, ?_⟩
      rintro rfl
      -- What repeats `a` further on stands behind `b`, so `b` would be `a` too.
      rcases List.mem_cons.1 hy with hy | hy
      · exact hab hy
      · exact hab (hanti a List.mem_cons_self b (List.mem_cons_of_mem _ List.mem_cons_self) (ha b List.mem_cons_self)
          ((List.pairwise_cons.1 hrest).1 a hy))

/-- Nothing is erased from a list with no repetitions. -/
theorem eraseReps_of_pairwise_ne [BEq α] [LawfulBEq α] : ∀ {l : List α}, l.Pairwise (· ≠ ·) → l.eraseReps = l
  | [], _ => rfl
  | [_], _ => rfl
  | a :: b :: l, h => by
    obtain ⟨ha, hl⟩ := List.pairwise_cons.1 h
    have hne : (a == b) = false := beq_eq_false_iff_ne.2 (ha b List.mem_cons_self)
    rw [eraseReps_cons_cons, hne, if_neg Bool.false_ne_true, eraseReps_of_pairwise_ne hl]

end LayoutLint
