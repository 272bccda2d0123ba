/-!
# Search — the first index with a property

Binary search for the least index at which a property holds, for a property that, once it holds, goes on holding.
-/
namespace LayoutLint

/-- The least index from `lo` on, below `hi`, at which `p` holds; `hi` when there is none. -/
def firstWhere (p : Nat → Bool) (lo hi : Nat) : Nat :=
  if lo < hi then
    let mid := (lo + hi) / 2
    if p mid then firstWhere p lo mid else firstWhere p (mid + 1) hi
  else lo
termination_by hi - lo

theorem le_firstWhere (p : Nat → Bool) (lo hi : Nat) (h : lo ≤ hi) :
    lo ≤ firstWhere p lo hi ∧ firstWhere p lo hi ≤ hi := by
  fun_induction firstWhere p lo hi with
  | case1 lo hi _ mid _ ih => have := ih (by omega); omega
  | case2 lo hi _ mid _ ih => have := ih (by omega); omega
  | case3 lo hi _ => omega

/-- **The search finds the boundary**: `p` fails below the index found and holds from it on. -/
theorem lt_firstWhere_iff (p : Nat → Bool) {lo hi : Nat}
    (mono : ∀ i j, lo ≤ i → i ≤ j → j < hi → p i = true → p j = true) {i : Nat} (hi₁ : lo ≤ i) (hi₂ : i < hi) :
    i < firstWhere p lo hi ↔ p i = false := by
  fun_induction firstWhere p lo hi with
  | case1 lo hi _ mid hp ih =>
    by_cases him : i < mid
    · exact ih (fun a b ha hab hb => mono a b ha hab (by omega)) hi₁ him
    · have hb := (le_firstWhere p lo mid (by omega)).2
      have hi' := mono mid i (by omega) (by omega) hi₂ hp
      simp only [hi', Bool.true_eq_false, iff_false]
      omega
  | case2 lo hi _ mid hp ih =>
    by_cases him : i ≤ mid
    · have hb := (le_firstWhere p (mid + 1) hi (by omega)).1
      refine iff_of_true (by omega) ?_
      cases hpi : p i with
      | false => rfl
      | true => exact absurd (mono i mid hi₁ him (by omega) hpi) hp
    · exact ih (fun a b ha hab hb => mono a b (by omega) hab hb) (by omega) hi₂
  | case3 lo hi _ => omega

end LayoutLint
