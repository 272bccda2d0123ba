/-!
# TokenSet — sets of tokens of one document

A set is kept as one flag a token, so that asking for a token takes no search. What a set holds is what it was made from
(`has_ofList`).
-/
namespace LayoutLint

structure TokenSet where
  flags : Array Bool
  deriving DecidableEq, Repr

namespace TokenSet

/-- The set of the listed tokens of a document with `size` tokens. -/
def ofList (size : Nat) (ids : List Nat) : TokenSet :=
  ⟨ids.foldl (fun flags i => flags.setIfInBounds i true) (Array.replicate size false)⟩

def has (s : TokenSet) (i : Nat) : Bool := s.flags.getD i false

theorem getD_foldl_set (ids : List Nat) (flags : Array Bool) (i : Nat) :
    (ids.foldl (fun flags i => flags.setIfInBounds i true) flags).getD i false =
      (flags.getD i false || (decide (i < flags.size) && ids.contains i)) := by
  induction ids generalizing flags with
  | nil => simp
  | cons a ids ih =>
    rw [List.foldl_cons, ih]
    simp only [Array.getD_eq_getD_getElem?, Array.getElem?_setIfInBounds, Array.size_setIfInBounds, List.contains_cons]
    by_cases ha : a = i
    · subst ha
      by_cases hi : a < flags.size <;> simp [hi]
    · simp [ha, beq_eq_false_iff_ne.2 (Ne.symm ha)]

/-- **A set holds what it was made from.** -/
theorem has_ofList (size : Nat) (ids : List Nat) (i : Nat) :
    (ofList size ids).has i = (decide (i < size) && ids.contains i) := by
  rw [ofList, has, getD_foldl_set]
  by_cases hi : i < size <;> simp [Array.getD, hi]

end TokenSet

end LayoutLint
