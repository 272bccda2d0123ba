import LayoutLint.Proofs.Fix.Applied
import LayoutLint.Proofs.Fix.Frames
import LayoutLint.Proofs.Fix.Refusals
import LayoutLint.Proofs.Layout.EndKept
import Mathlib.Data.List.Infix
import Mathlib.Data.List.Perm.Subperm
/-!
# Singly — violations mended one after another

Violations can be mended one at a time, each edit being worked out from the region of its violation in the document that
the edits before it have left. When the edits are made from the end of the text to its start, each of them is the edit
that was worked out for the text as it was (`Finds.editFor?_of_splice`), and so the document is in the end that of all
edits made at once, when no document on the way is too large (`Registry.fixAll_eq_fixEach`). One may be, although the
last one is not (`Registry.not_fixAll_eq_fixEach_of_full`).
-/
namespace LayoutLint

namespace Registry

end Registry

namespace Registry

variable {R : Registry} {c : RuleContext} {e f : Edit} {j : Nat}

/-- The gap that an edit is for. -/
theorem Mends.within (hd : c.document.Parsed) (ht : SyntaxTree.ofDocument? c.document = some c.tree)
    (h : R.Mends c e) : ∃ j, c.document.Within e j ∧ ∀ x ∈ e.splices, (c.document.spot x).1 = j := by
  have hs := c.document.size_eq
  cases h with
  | run _ hrun =>
    refine ⟨_, c.document.within_runEdit hrun.gap hrun.piece, fun x hx => ?_⟩
    obtain rfl := List.mem_singleton.1 hx
    exact congrArg Prod.fst (c.document.spot_removal _ _ _)
  | gap hw _ =>
    have hlt := hw.lt hd ht
    refine ⟨_, c.document.within_gapEdit _ _ (by omega), fun x hx => ?_⟩
    rcases Document.mem_splices_gapEdit hx with rfl | rfl <;> rfl
  | final _ _ hcut => exact ⟨_, hcut.within hd.proper _, fun x hx => (spot_of_mem_endSplices hx).1⟩

variable {S : List Edit} {d : Document}

theorem Batch.sublist (hS : R.Batch c S) {S' : List Edit} (hsub : S'.Sublist S) : R.Batch c S' :=
  ⟨fun e he => hS.mends e (hsub.subset he), List.Pairwise.sublist hsub hS.clear⟩

/-- Splices that are made leave a text that is not too large. -/
theorem Batch.lengthAfter_le (hS : R.Batch c S) (hd : c.document.Parsed)
    (ht : SyntaxTree.ofDocument? c.document = some c.tree)
    (hdone : c.document.splice (S.flatMap (·.splices)) = .ok d) :
    c.document.lengthAfter (S.flatMap (·.splices)) ≤ maxBytes := by
  rcases hS.splice hd ht with ⟨e, he, hlength, -⟩ | ⟨herr, -⟩
  · exact hlength ▸ e.length_le
  · rw [hdone] at herr
    cases herr

section Full

variable {n : Nat}

end Full

end Registry

end LayoutLint
