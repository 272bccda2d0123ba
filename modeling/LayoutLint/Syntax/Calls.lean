import LayoutLint.Syntax.Declarations
/-!
# Calls — what parentheses apply

A parenthesis that no declaration and no attribute has claimed belongs to a keyword with an operand, to the creation of
an object, or to a call. A call of a member also tells its receiver, which is read backwards over the whole chain of
accesses, indexes and calls.
-/
namespace LayoutLint.Outline

/-- The keywords that take an operand in parentheses. -/
def operandKeywords : List String := ["checked", "default", "sizeof", "typeof", "unchecked"]

/-- Does a `where` clause go on at token `i`? -/
def inConstraint (o : Outline) : Nat → Bool
  | 0 => false
  | i + 1 =>
    if o.isAt i "where" && o.isIdentifier i then true
    else if o.isOneOf i [";", "\x7b", "\x7d", "=", "=>", "(", "return"] then false
    else o.inConstraint i

/-- Is the `new` at token `i` a constraint on a type parameter? -/
def isNewConstraint (o : Outline) (i : Nat) : Bool := o.isAt (i + 2) ")" && o.inConstraint i

/-- Does token `i` take the parenthesis after it as its operand? -/
def takesOperand (o : Outline) (i : Nat) : Bool :=
  match o.kind i with
  | .keyword =>
    o.isOneOf i operandKeywords || (o.isOneOf i ["this", "base"] && 0 < i && o.isAt (i - 1) ":") ||
      (o.isAt i "new" && !o.isNewConstraint i)
  | .identifier => o.isAt i "nameof"
  | _ => false

/-- The keywords that take an operand, with their parentheses. -/
def keywordExpressions (o : Outline) (claimed : TokenSet) : List (Nat × Nat) :=
  o.ids.filterMap fun i =>
    if o.isAt (i + 1) "(" && !claimed.has (i + 1) && o.takesOperand i then some (i, i + 1) else none

/-- The types after `new`, by their last tokens, with their parentheses. -/
def objectCreations (o : Outline) (claimed : TokenSet) : List (Nat × Nat) :=
  o.ids.filterMap fun i =>
    if o.isKeyword i "new" && !o.isOneOf (i + 1) ["(", "[", "\x7b"] then
      (o.typeNameEnd? (i + 1)).bind fun last =>
        if o.isAt (last + 1) "(" && !claimed.has (last + 1) then some (last, last + 1) else none
    else none

/-- One step backwards along a chain of accesses. -/
inductive ReceiverStep where
  /-- The chain goes on in front, at this token. -/
  | more (i : Nat)
  /-- The chain starts at this token. -/
  | start (i : Nat)

/-- The first token of the creation whose type starts at token `first`, or that token when there is no `new`. -/
def creationStart (o : Outline) (first : Nat) : Nat :=
  if 0 < first && o.isKeyword (first - 1) "new" then first - 1 else first

/-- The step from a primary expression that starts at token `first`. A `new` in front belongs to it. -/
def receiverStepFrom (o : Outline) (first : Nat) : ReceiverStep :=
  let first := o.creationStart first
  if 2 ≤ first && o.isAt (first - 1) "." then .more (first - 2) else .start first

/-- The step from the last token of an expression; `none` when the token can end no receiver. -/
def receiverStep? (o : Outline) (i : Nat) : Option ReceiverStep :=
  if o.isAt i "?" then if 0 < i then some (.more (i - 1)) else none
  else if o.isOneOf i [")", "]"] then
    match o.opening? i with
    | some b => if 0 < b && o.isPostfixTarget (b - 1) then some (.more (b - 1)) else some (o.receiverStepFrom b)
    | none => none
  else
    match o.typeArgsStart? i with
    | some start => if 0 < start then some (.more (start - 1)) else none
    | none => if o.isPrimary i then some (o.receiverStepFrom i) else none

theorem receiverStepFrom_lt {o : Outline} {first j : Nat} (h : o.receiverStepFrom first = .more j) : j < first := by
  have hle : o.creationStart first ≤ first := by unfold creationStart; split <;> omega
  simp only [receiverStepFrom] at h
  split at h
  · rename_i hd
    simp only [Bool.and_eq_true, decide_eq_true_eq] at hd
    cases h
    omega
  · cases h

theorem receiverStep?_lt {o : Outline} {i j : Nat} (h : o.receiverStep? i = some (.more j)) : j < i := by
  unfold receiverStep? at h
  split at h
  · split at h
    · cases h; omega
    · cases h
  · split at h
    · split at h
      · rename_i b hb
        have := Brackets.lt_of_opening? hb
        split at h
        · cases h; omega
        · have := receiverStepFrom_lt (Option.some.inj h); omega
      · cases h
    · split at h
      · rename_i start hs
        have := lt_of_typeArgsStart? hs
        split at h
        · cases h; omega
        · cases h
      · split at h
        · exact receiverStepFrom_lt (Option.some.inj h)
        · cases h

/-- The first token of the receiver whose last token is `i`. -/
def receiverStart? (o : Outline) (i : Nat) : Option Nat :=
  match _h : o.receiverStep? i with
  | some (.more j) => o.receiverStart? j
  | some (.start first) => some first
  | none => none
termination_by i
decreasing_by exact receiverStep?_lt _h

/-- The words after which a name with a parenthesis declares a type or an operator. -/
def declaringWords : List String := ["class", "struct", "record", "interface", "operator", "enum"]

/-- The nodes of the call whose parenthesis is token `i`. `declared` tells the names of declarations. -/
def invocationAt (o : Outline) (declared : TokenSet) (i : Nat) : List SyntaxNode :=
  match o.nameBefore? (i - 1) with
  | none => []
  | some name =>
    if declared.has name || (0 < name && o.isOneOf (name - 1) declaringWords) then []
    else
      let receiver? := if 2 ≤ name && o.isAt (name - 1) "." then o.receiverStart? (name - 2) else none
      .invocation (i - 1) i ::
        (receiver?.map fun first =>
          SyntaxNode.memberInvocation ⟨first, name - 2⟩ name i ((o.closing? i).getD i)).toList

/-- The nodes of the calls of a document. -/
def invocations (o : Outline) (declared claimed : TokenSet) : List SyntaxNode :=
  o.ids.flatMap fun i => if 0 < i && o.isAt i "(" && !claimed.has i then o.invocationAt declared i else []

end LayoutLint.Outline
