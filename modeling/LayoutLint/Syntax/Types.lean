import LayoutLint.Syntax.Outline
/-!
# Types — how far a type reaches

A type is a name, possibly qualified and with type arguments, or a predefined type, followed by any number of `?`, `*`
and array ranks. In front of a declared name a type is read backwards (`typeStart?`), after `new` and in a cast forwards
(`typeNameEnd?`, `castTypeEnd?`).
-/
namespace LayoutLint.Outline

/-- Does the `]` close an array rank, which holds only commas? -/
def isRank (o : Outline) (close : Nat) : Bool :=
  match o.opening? close with
  | some start => (List.range' (start + 1) (close - (start + 1))).all fun k => o.isAt k ","
  | none => false

/-- Can token `i` end the type of a declaration? -/
def isTypeEnd (o : Outline) : Nat → Bool
  | 0 => o.isName 0 || o.isPredefined 0 || o.closesTypeArgs 0 || (o.isAt 0 "]" && o.isRank 0)
  | i + 1 =>
    o.isName (i + 1) || o.isPredefined (i + 1) || o.closesTypeArgs (i + 1) ||
      (o.isAt (i + 1) "]" && o.isRank (i + 1)) || (o.isOneOf (i + 1) ["?", "*"] && o.isTypeEnd i)

/-- The first token of the type whose last token is `i`. -/
def typeStart? (o : Outline) (i : Nat) : Option Nat :=
  if o.isOneOf i ["?", "*"] then
    if 0 < i then o.typeStart? (i - 1) else none
  else if o.isAt i "]" && o.isRank i then
    match _h : o.opening? i with
    | some start => if 0 < start then o.typeStart? (start - 1) else none
    | none => none
  else
    match _h : (match o.typeArgsStart? i with
      | some start => if 0 < start then some (start - 1) else none
      | none => some i) with
    | none => none
    | some name =>
      if o.isIdentifier name || o.isPredefined name then
        if 2 ≤ name && o.isOneOf (name - 1) [".", "::"] then o.typeStart? (name - 2) else some name
      else none
termination_by i
decreasing_by
  · omega
  · have := Brackets.lt_of_opening? _h
    omega
  · have : name ≤ i := by
      split at _h
      · rename_i start hs
        have := lt_of_typeArgsStart? hs
        split at _h
        · cases _h; omega
        · cases _h
      · cases _h; exact Nat.le_refl _
    rename_i hn
    simp only [Bool.and_eq_true, decide_eq_true_eq] at hn
    omega

/-- The last token of the qualified name with type arguments whose first part is token `i`. -/
def qualifiedEnd (o : Outline) (i : Nat) : Nat :=
  let last := (o.typeArgsEnd? (i + 1)).getD i
  if _h : o.isOneOf (last + 1) [".", "::"] && o.kind (last + 2) == .identifier then o.qualifiedEnd (last + 2) else last
termination_by o.document.size - i
decreasing_by
  simp only [Bool.and_eq_true, beq_iff_eq] at _h
  have hlt : last + 2 < o.document.size :=
    Document.lt_size_of_kindAt (by rw [show o.document.kindAt (last + 2) = _ from _h.2]; decide)
  have hle : i ≤ last := by
    show i ≤ (o.typeArgsEnd? (i + 1)).getD i
    cases h : o.typeArgsEnd? (i + 1) with
    | none => exact Nat.le_refl _
    | some c => have := lt_of_typeArgsEnd? h; simp only [Option.getD_some]; omega
  omega

/-- The last of the question marks after token `i`. -/
def nullableEnd (o : Outline) (i : Nat) : Nat :=
  if _h : i < o.document.size && o.isAt (i + 1) "?" then o.nullableEnd (i + 1) else i
termination_by o.document.size - i
decreasing_by
  simp only [Bool.and_eq_true, decide_eq_true_eq] at _h
  omega

/-- The last token of the type name that starts at token `i`: qualified, with type arguments, or nullable. -/
def typeNameEnd? (o : Outline) (i : Nat) : Option Nat :=
  let first := if o.isAt i "global" && o.isAt (i + 1) "::" then i + 2 else i
  if o.isIdentifier first || o.isPredefined first then some (o.nullableEnd (o.qualifiedEnd first)) else none

/-- The last token of the type of a cast after its name, which ends in token `i`. -/
def castTypeTail (o : Outline) (i : Nat) : Nat :=
  if _h : i < o.document.size && o.isOneOf (i + 1) ["*", "?"] then o.castTypeTail (i + 1)
  else if o.isAt (i + 1) "[" then
    match _h : o.closing? (i + 1) with
    | some close => if close < o.document.size && o.isRank close then o.castTypeTail close else i
    | none => i
  else i
termination_by o.document.size - i
decreasing_by
  · simp only [Bool.and_eq_true, decide_eq_true_eq] at _h
    omega
  · have := Brackets.lt_of_closing? _h
    rename_i hc
    simp only [Bool.and_eq_true, decide_eq_true_eq] at hc
    omega

/-- The last token of the type of a cast that starts at token `i`. -/
def castTypeEnd? (o : Outline) (i : Nat) : Option Nat := (o.typeNameEnd? i).map o.castTypeTail

end LayoutLint.Outline
