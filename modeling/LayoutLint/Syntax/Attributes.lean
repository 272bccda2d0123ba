import LayoutLint.Syntax.Node
import LayoutLint.Syntax.Outline
import LayoutLint.Syntax.TokenSet
/-!
# Attributes — lists of attributes in front of declarations and parameters

An attribute list is a pair of square brackets around names with optional arguments, in a place where a declaration or a
parameter of a declaration can start. A target such as `return:` may stand in front of the names.
-/
namespace LayoutLint

structure AttributeList where
  opening : Nat
  closing : Nat
  /-- The names as written, type arguments included. -/
  names : List String
  /-- The last token of each name that has arguments, with the parenthesis after it. -/
  arguments : List (Nat × Nat)
  deriving DecidableEq, Repr

namespace Outline

/-- The last part of the dotted name whose first part is token `i`. -/
def dottedEnd (o : Outline) (i : Nat) : Nat :=
  if _h : o.isOneOf (i + 1) [".", "::"] && o.kind (i + 2) == .identifier then o.dottedEnd (i + 2) else i
termination_by o.document.size - i
decreasing_by
  simp only [Bool.and_eq_true, beq_iff_eq] at _h
  have : i + 2 < o.document.size :=
    Document.lt_size_of_kindAt (by rw [show o.document.kindAt (i + 2) = _ from _h.2]; decide)
  omega

/-- The last token of the attribute name whose first part is token `i`. -/
def attributeNameEnd (o : Outline) (i : Nat) : Nat := (o.typeArgsEnd? (o.dottedEnd i + 1)).getD (o.dottedEnd i)

theorem le_dottedEnd (o : Outline) (i : Nat) : i ≤ o.dottedEnd i := by
  fun_induction dottedEnd o i with
  | case1 i h ih => omega
  | case2 => exact Nat.le_refl _

theorem le_attributeNameEnd (o : Outline) (i : Nat) : i ≤ o.attributeNameEnd i := by
  have := o.le_dottedEnd i
  unfold attributeNameEnd
  cases h : o.typeArgsEnd? (o.dottedEnd i + 1) with
  | none => simpa using this
  | some c => have := lt_of_typeArgsEnd? h; simp only [Option.getD_some]; omega

/-- The token after the parentheses that open at token `i`; token `i` itself when it opens none. -/
def afterParens? (o : Outline) (i : Nat) : Option Nat :=
  if o.isAt i "(" then (o.closing? i).map (· + 1) else some i

theorem le_of_afterParens? {o : Outline} {i j : Nat} (h : o.afterParens? i = some j) : i ≤ j := by
  unfold afterParens? at h
  split at h
  · obtain ⟨c, hc, rfl⟩ := Option.map_eq_some_iff.1 h
    exact Nat.le_succ_of_le (Nat.le_of_lt (Brackets.lt_of_closing? hc))
  · cases h; exact Nat.le_refl _

/-- The attributes from token `i` on to the bracket `close`, each as its name and its arguments. -/
def attributesFrom? (o : Outline) (close i : Nat) : Option (List (String × Option (Nat × Nat))) :=
  if _hi : o.isIdentifier i then
    let nameEnd := o.attributeNameEnd i
    let name := o.document.joined i (nameEnd + 1)
    let arguments := if o.isAt (nameEnd + 1) "(" then some (nameEnd, nameEnd + 1) else none
    match _h : o.afterParens? (nameEnd + 1) with
    | none => none
    | some next =>
      if o.isAt next "," then (o.attributesFrom? close (next + 1)).map ((name, arguments) :: ·)
      else if o.isAt next "]" && next == close then some [(name, arguments)]
      else none
  else none
termination_by o.document.size - i
decreasing_by
  have h₁ := le_of_afterParens? _h
  have h₂ := o.le_attributeNameEnd i
  have h₃ : i < o.document.size := Document.lt_size_of_kindAt (by
    rw [show o.document.kindAt i = _ from beq_iff_eq.1 _hi]; decide)
  simp only [nameEnd] at h₁
  omega

/-- The attribute list that token `i` opens. -/
def attributeListAt? (o : Outline) (i : Nat) : Option AttributeList := do
  let closing ← o.closing? i
  let hasTarget := (o.kind (i + 1) == .identifier || o.kind (i + 1) == .keyword) && o.isAt (i + 2) ":"
  let attributes ← o.attributesFrom? closing (if hasTarget then i + 3 else i + 1)
  return { opening := i, closing, names := attributes.map (·.1), arguments := attributes.filterMap (·.2) }

/-- The attribute lists in front of declarations. -/
def declarationAttributes (o : Outline) : List AttributeList :=
  o.ids.filterMap fun i =>
    if o.isAt i "[" && (i == 0 || o.isOneOf (i - 1) [";", "\x7b", "\x7d", "]"]) then o.attributeListAt? i else none

/-- The parenthesis that token `i` stands in, where no brace or semicolon comes in between. -/
def enclosingParen? (o : Outline) (i : Nat) : Option Nat :=
  if _h : 0 < i then
    let j := i - 1
    if o.isOneOf j [")", "]", "\x7d"] then o.enclosingParen? ((o.opening? j).getD j)
    else if o.isAt j "(" then some j
    else if o.isOneOf j ["\x7b", ";"] then none
    else o.enclosingParen? j
  else none
termination_by i
decreasing_by
  · have : (o.opening? (i - 1)).getD (i - 1) ≤ i - 1 := by
      cases h : o.opening? (i - 1) with
      | none => exact Nat.le_refl _
      | some b => exact Nat.le_of_lt (Brackets.lt_of_opening? h)
    show (o.opening? (i - 1)).getD (i - 1) < i
    omega
  · show i - 1 < i
    omega

/-- The attribute lists in front of parameters, where `parameterLists` holds the parentheses of declarations. Lists in
front of declarations, by their closing brackets in `known`, are left out. -/
def parameterAttributes (o : Outline) (parameterLists : TokenSet) (known : Nat → Bool) : List AttributeList :=
  o.ids.filterMap fun i =>
    if o.isAt i "[" && !(o.closing? i).any known && (0 < i && o.isOneOf (i - 1) ["(", ","]) &&
        (o.enclosingParen? i).any parameterLists.has then
      o.attributeListAt? i
    else none

end Outline

/-- The nodes of an attribute list, one for each attribute with arguments. -/
def AttributeList.nodes (l : AttributeList) : List SyntaxNode :=
  l.arguments.map fun (nameEnd, opening) => .attributeArguments nameEnd opening

end LayoutLint
