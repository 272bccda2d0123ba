import LayoutLint.Syntax.Attributes
import LayoutLint.Syntax.Operators
/-!
# Statements — where a statement ends, `using` and `if`

The end of a statement is found from its first token: a block ends at its brace, a compound statement where its last
part ends, anything else at its semicolon. In broken programs the end found can lie in front of the statement, so that
looking for the end of a chain of `else` branches may run in a circle. Looking for an end at one token leads to the same
token again only in a circle, so a search that is still going on after more rounds than there are tokens never ends;
`statementEnd?` answers `none` then.
-/
namespace LayoutLint

namespace Outline

theorem lt_size_of_isAt {o : Outline} {i : Nat} {text : String} (h : o.isAt i text = true) (hne : text ≠ "") :
    i < o.document.size := by
  by_cases hi : i < o.document.tokens.size
  · exact hi
  · have hw : o.word i = "" := by
      simp [word, Document.wordAt, Document.token, Array.getD, hi, Token.endOfFile]
    exact absurd ((beq_iff_eq.1 h).symm.trans hw) hne

/-- The brace that opens the body of the `catch` clause that goes on at token `i`, or the token where it should be. -/
def catchBody? (o : Outline) (i : Nat) : Option Nat := do
  let afterType ← o.afterParens? i
  if o.isAt afterType "when" && o.isAt (afterType + 1) "(" then o.afterParens? (afterType + 1) else return afterType

theorem le_of_catchBody? {o : Outline} {i j : Nat} (h : o.catchBody? i = some j) : i ≤ j := by
  obtain ⟨k, hk, h⟩ := Option.bind_eq_some_iff.1 h
  have h₁ := le_of_afterParens? hk
  split at h
  · have h₂ := le_of_afterParens? h
    omega
  · cases h; exact h₁

/-- The end of a `try` statement whose last block so far ends at token `i`. -/
def handlersEnd? (o : Outline) (i : Nat) : Option Nat :=
  if _hc : o.isAt (i + 1) "catch" then
    match _hb : o.catchBody? (i + 2) with
    | none => none
    | some body =>
      if o.isAt body "\x7b" then
        match _h : o.closing? body with
        | some close => o.handlersEnd? close
        | none => none
      else some i
  else if o.isAt (i + 1) "finally" && o.isAt (i + 2) "\x7b" then o.closing? (i + 2)
  else some i
termination_by o.document.size - i
decreasing_by
  have h₁ := lt_size_of_isAt _hc (by decide)
  have h₂ := le_of_catchBody? _hb
  have h₃ := Brackets.lt_of_closing? _h
  omega

/-- The keywords of statements with a head in parentheses and one statement after it. -/
def headedStatements : List String := ["for", "foreach", "while", "using", "lock", "fixed"]

/-- The last token of the statement that starts at token `s`, found in at most `rounds` rounds. -/
def statementEndWithin? (o : Outline) : (rounds : Nat) → (s : Nat) → Option Nat
  | 0, _ => none
  | rounds + 1, s =>
    if o.eof ≤ s then some o.lastReal
    else if o.isAt s "\x7b" then some ((o.closing? s).getD o.lastReal)
    else if o.isKeyword s "if" then
      match if o.isAt (s + 1) "(" then o.closing? (s + 1) else none with
      | none => some o.lastReal
      | some close => do
        let last ← o.statementEndWithin? rounds (close + 1)
        if o.isKeyword (last + 1) "else" then o.statementEndWithin? rounds (last + 2) else return last
    else if o.kind s == .keyword && o.isOneOf s headedStatements && o.isAt (s + 1) "(" then
      match o.closing? (s + 1) with
      | none => some o.lastReal
      | some close => o.statementEndWithin? rounds (close + 1)
    else if o.isKeyword s "do" then do
      let last ← o.statementEndWithin? rounds (s + 1)
      if o.isKeyword (last + 1) "while" then
        match o.partner? (last + 2) with
        | none => return o.lastReal
        | some close => return if o.isAt (close + 1) ";" then close + 1 else close
      else return last
    else if o.isKeyword s "try" then some (((o.partner? (s + 1)).bind o.handlersEnd?).getD o.lastReal)
    else if o.isKeyword s "switch" && o.isAt (s + 1) "(" then
      match o.closing? (s + 1) with
      | none => some o.lastReal
      | some close => some (if o.isAt (close + 1) "\x7b" then (o.closing? (close + 1)).getD o.lastReal else close)
    else if o.kind s == .keyword && o.isOneOf s ["checked", "unchecked", "unsafe"] && o.isAt (s + 1) "\x7b" then
      some ((o.closing? (s + 1)).getD o.lastReal)
    else some (o.expressionEnd s)

/-- The last token of the statement that starts at token `s`; `none` when looking for it never ends. -/
def statementEnd? (o : Outline) (s : Nat) : Option Nat := o.statementEndWithin? (o.document.size + 1) s

/-- The bodies of `using` statements: the keyword and the first token of the body. -/
def usingHeads (o : Outline) : List (Nat × Nat) :=
  o.ids.filterMap fun i =>
    if o.isKeyword i "using" && o.isAt (i + 1) "(" then
      ((o.closing? (i + 1)).map (· + 1)).bind fun body => if body < o.eof then some (i, body) else none
    else none

/-- The nodes of `using` statements. -/
def usingStatements? (o : Outline) : Option (List SyntaxNode) :=
  o.usingHeads.mapM fun (keyword, body) => do
    let last ← o.statementEnd? body
    let kind :=
      if o.isAt body "\x7b" then StatementKind.block
      else if o.isAt body "using" then .usingStatement
      else .other
    return .usingStatement keyword ⟨body, last⟩ kind

/-- The end of a chain of branches of which the last so far ends at token `last`, found in at most `rounds` rounds, and
whether it ends with a branch without condition. -/
def elseChainWithin? (o : Outline) : (rounds : Nat) → (last : Nat) → Option (Nat × Bool)
  | 0, _ => none
  | rounds + 1, last =>
    if o.isKeyword (last + 1) "else" then
      if o.isKeyword (last + 2) "if" && o.isAt (last + 3) "(" then
        match o.closing? (last + 3) with
        | none => some (last, false)
        | some close => do o.elseChainWithin? rounds (← o.statementEnd? (close + 1))
      else (o.statementEnd? (last + 2)).map (·, true)
    else some (last, false)

/-- The condition from token `first` up to token `stop` without the parentheses around all of it. -/
def unwrapParens (o : Outline) (first stop : Nat) : Nat × Nat :=
  if first < stop && o.isAt first "(" && o.closing? first == some (stop - 1) then o.unwrapParens (first + 1) (stop - 1)
  else (first, stop)
termination_by stop
decreasing_by
  rename_i h
  simp only [Bool.and_eq_true, decide_eq_true_eq] at h
  omega

/-- The operators that assign, the arrow of a lambda among them. -/
def assignments : List String := ["=", "+=", "-=", "*=", "/=", "%=", "&=", "|=", "^=", "<<=", "??=", "=>"]

/-- What a condition holds outside of its brackets. -/
structure ConditionScan where
  depth : Nat := 0
  /-- A `||`. -/
  disjunct : Bool := false
  /-- A `&&`. -/
  conjunct : Bool := false
  /-- An `or` between patterns. -/
  patternOr : Bool := false
  /-- An operator that binds less than `||`. -/
  looser : Bool := false

/-- Reads token `i` of a condition. -/
def ConditionScan.step (o : Outline) (roles : Array (Option OperatorRole)) (s : ConditionScan) (i : Nat) :
    ConditionScan :=
  if o.isOneOf i ["(", "[", "\x7b"] then { s with depth := s.depth + 1 }
  else if o.isOneOf i [")", "]", "\x7d"] then { s with depth := s.depth - 1 }
  else if 0 < s.depth then s
  else if o.isAt i "||" then { s with disjunct := true }
  else if o.isAt i "&&" then { s with conjunct := true }
  else if o.isAt i "??" || o.isOneOf i assignments then { s with looser := true }
  else
    match roles.getD i none with
    | some .conditionalQuestion => { s with looser := true }
    | some .pattern => { s with patternOr := s.patternOr || o.isAt i "or" }
    | _ => s

/-- Is the condition between the parentheses `opening` and `closing` an alternative: a `||` expression, or a test for
either of two patterns? -/
def isDisjunction (o : Outline) (roles : Array (Option OperatorRole)) (opening closing : Nat) : Bool :=
  let (first, stop) := o.unwrapParens (opening + 1) closing
  let s := (List.range' first (stop - first)).foldl (ConditionScan.step o roles) {}
  !s.looser && (s.disjunct || (s.patternOr && !s.conjunct))

/-- The `if` statements: the keyword, the parenthesis that closes the condition. -/
def ifHeads (o : Outline) : List (Nat × Nat) :=
  o.ids.filterMap fun i =>
    if o.isKeyword i "if" && o.isAt (i + 1) "(" then
      (o.closing? (i + 1)).bind fun close => if close + 1 < o.eof then some (i, close) else none
    else none

/-- The nodes of `if` statements. -/
def ifStatements? (o : Outline) (roles : Array (Option OperatorRole)) : Option (List SyntaxNode) :=
  o.ifHeads.mapM fun (keyword, close) => do
    let body := close + 1
    let (last, endsWithElse) ← o.elseChainWithin? (o.document.size + 1) (← o.statementEnd? body)
    let bodyFirst := if o.isAt body "\x7b" then body + 1 else body
    return .ifStatement ⟨keyword, last⟩ (o.isDisjunction roles (keyword + 1) close) bodyFirst endsWithElse

end Outline

end LayoutLint
