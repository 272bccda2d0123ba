import LayoutLint.Total
/-!
# Measure — texts by the byte

Offsets into a text count the bytes of its UTF-8 form. `width` is the number of them, and `splitAtByte?` cuts a text at
an offset that stands between two characters. The two agree: what `splitAtByte?` cuts off has the width asked for
(`width_of_splitAtByte?`), and a cut exists at the width of every front part (`splitAtByte?_append`).
-/
namespace LayoutLint.Text

/-- The number of bytes of the characters. -/
def width (cs : List Char) : Nat := total (cs.map Char.utf8Size)

@[simp] theorem width_nil : width [] = 0 := rfl

@[simp] theorem width_cons (c : Char) (cs : List Char) : width (c :: cs) = c.utf8Size + width cs := by
  simp [width]

@[simp] theorem width_append (xs ys : List Char) : width (xs ++ ys) = width xs + width ys := by
  simp [width]

theorem utf8ByteSize_eq_width (s : String) : s.utf8ByteSize = width s.toList := by
  have size_ofList : ∀ cs : List Char, (String.ofList cs).utf8ByteSize = width cs := by
    intro cs
    induction cs with
    | nil => rfl
    | cons c cs ih =>
      rw [show String.ofList (c :: cs) = String.singleton c ++ String.ofList cs from String.ext (by simp),
        String.utf8ByteSize_append, ih, width_cons, String.utf8ByteSize_singleton]
  rw [← size_ofList, String.ofList_toList]

/-- The characters in the first `n` bytes and those after them; `none` when byte `n` is inside a character or past the
end. -/
def splitAtByte? : Nat → List Char → Option (List Char × List Char)
  | 0, cs => some ([], cs)
  | _ + 1, [] => none
  | n + 1, c :: cs =>
    if c.utf8Size ≤ n + 1 then
      (splitAtByte? (n + 1 - c.utf8Size) cs).map fun (front, rest) => (c :: front, rest)
    else none

theorem width_of_splitAtByte? {n : Nat} {cs front rest : List Char} (h : splitAtByte? n cs = some (front, rest)) :
    front ++ rest = cs ∧ width front = n := by
  induction cs generalizing n front with
  | nil => cases n <;> simp_all [splitAtByte?]
  | cons c cs ih =>
    cases n with
    | zero => simp_all [splitAtByte?]
    | succ n =>
      simp only [splitAtByte?] at h
      split at h
      · obtain ⟨⟨front', rest'⟩, hs, he⟩ := Option.map_eq_some_iff.1 h
        obtain ⟨rfl, rfl⟩ := Prod.mk.inj he
        obtain ⟨rfl, hw⟩ := ih hs
        exact ⟨rfl, by rw [width_cons, hw]; omega⟩
      · cases h

theorem splitAtByte?_append (front rest : List Char) :
    splitAtByte? (width front) (front ++ rest) = some (front, rest) := by
  induction front with
  | nil => simp [splitAtByte?]
  | cons c cs ih =>
    have hc : 0 < c.utf8Size := Char.utf8Size_pos c
    obtain ⟨n, hn⟩ : ∃ n, width (c :: cs) = n + 1 := ⟨width (c :: cs) - 1, by rw [width_cons]; omega⟩
    have hw : n + 1 - c.utf8Size = width cs := by rw [← hn, width_cons]; omega
    rw [hn, List.cons_append, splitAtByte?, if_pos (by rw [← hn, width_cons]; omega), hw, ih]
    rfl

/-- The part of a text from one offset to another; `none` when an offset is inside a character or past the end, or
when the offsets are in the wrong order. -/
def slice? (start stop : Nat) (cs : List Char) : Option (List Char) :=
  if start ≤ stop then do
    let (_, rest) ← splitAtByte? start cs
    let (part, _) ← splitAtByte? (stop - start) rest
    return part
  else none

end LayoutLint.Text
