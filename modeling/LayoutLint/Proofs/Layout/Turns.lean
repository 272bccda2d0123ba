import LayoutLint.Proofs.Layout.Apart
/-!
# Turns — splices made in turns

Splices that start at some piece or behind it leave all pieces in front of it (`Splice.take_applyAll`). So splices that
can be made at once can be made in turns too, those further behind first: each turn finds the pieces that it names where
they were (`Document.splice_append`).
-/
namespace LayoutLint

namespace Splice

end Splice

namespace Token

variable {id : Nat} {t t' : Token} {ss : List Splice}

/-- The trivia that no splice is about is as it was. -/
theorem trivia_splice (h : t.splice id ss = .ok t') {slot : Slot} (hss : ∀ s ∈ ss, s.slot ≠ slot) :
    t'.trivia slot = t.trivia slot := by
  obtain ⟨-, leading, trailing, hl, ht, rfl⟩ := splice_eq_ok_iff.1 h
  have hfilter : ss.filter (·.slot == slot) = [] :=
    List.filter_eq_nil_iff.2 fun s hs h => hss s hs (beq_iff_eq.1 h)
  cases slot
  · rw [hfilter, Splice.applyAll_nil] at hl
    exact (Except.ok.inj hl).symm
  · rw [hfilter, Splice.applyAll_nil] at ht
    exact (Except.ok.inj ht).symm

end Token

namespace Document

variable {d e : Document}

end Document

end LayoutLint
