import LayoutLint.Document
/-!
# Brackets — which bracket closes which

Brackets are matched from left to right with a stack. A closing bracket takes the innermost open bracket of its shape
and drops the brackets opened inside of it, which then stay without partner; one that finds no bracket of its shape is
left without partner itself. Beside the partners the table tells the innermost `{` around each token.
-/
namespace LayoutLint

/-- The opening bracket of the shape of a closing one. -/
def openerOf : String → Option String
  | ")" => some "("
  | "]" => some "["
  | "\x7d" => some "\x7b"
  | _ => none

def isOpener (text : String) : Bool := text == "(" || text == "[" || text == "\x7b"

/-- The tables of partners and of enclosing braces, one entry a token. -/
structure Brackets where
  /-- The bracket that a bracket belongs together with. -/
  partner : Array (Option Nat)
  /-- The innermost `{` that is open before the token. -/
  enclosing : Array (Option Nat)
  deriving DecidableEq, Repr

/-- Brackets matched up to some token: the tables so far, the brackets that are open with their texts, and the braces
that are open, innermost first. -/
structure BracketScan where
  table : Brackets
  opened : List (Nat × String)
  braces : List Nat

/-- The braces that stay open when brace `b` is closed: those outside of it. -/
def bracesOutside (b : Nat) (braces : List Nat) : List Nat :=
  if braces.contains b then (braces.dropWhile (· != b)).tail else braces

/-- Takes token `i` with its text into the scan. -/
def BracketScan.step (s : BracketScan) (i : Nat) (text : String) : BracketScan :=
  let table : Brackets := { s.table with enclosing := s.table.enclosing.push s.braces.head? }
  if isOpener text then
    { table, opened := (i, text) :: s.opened, braces := if text == "\x7b" then i :: s.braces else s.braces }
  else
    match openerOf text with
    | none => { s with table }
    | some opener =>
      match s.opened.dropWhile (·.2 != opener) with
      | [] => { s with table }
      | (o, _) :: outer =>
        { table := { table with partner := (table.partner.setIfInBounds o (some i)).setIfInBounds i (some o) }
          opened := outer
          braces := if text == "\x7d" then bracesOutside o s.braces else s.braces }

/-- The brackets of token texts. -/
def Brackets.ofTexts (texts : List String) : Brackets :=
  let start : BracketScan := ⟨⟨Array.replicate texts.length none, #[]⟩, [], []⟩
  (texts.zipIdx.foldl (fun s (text, i) => s.step i text) start).table

namespace Brackets

/-- The bracket that belongs together with bracket `i`. -/
def partner? (b : Brackets) (i : Nat) : Option Nat := b.partner.getD i none

/-- The bracket that closes bracket `i`. -/
def closing? (b : Brackets) (i : Nat) : Option Nat := (b.partner? i).filter (i < ·)

/-- The bracket that opens the one closed by `i`. -/
def opening? (b : Brackets) (i : Nat) : Option Nat := (b.partner? i).filter (· < i)

/-- The innermost `{` around token `i`. -/
def enclosing? (b : Brackets) (i : Nat) : Option Nat := (b.enclosing.getD i none).filter (· < i)

theorem lt_of_closing? {b : Brackets} {i c : Nat} (h : b.closing? i = some c) : i < c := by
  simpa using (Option.filter_eq_some_iff.1 h).2

theorem lt_of_opening? {b : Brackets} {i o : Nat} (h : b.opening? i = some o) : o < i := by
  simpa using (Option.filter_eq_some_iff.1 h).2

theorem lt_of_enclosing? {b : Brackets} {i o : Nat} (h : b.enclosing? i = some o) : o < i := by
  simpa using (Option.filter_eq_some_iff.1 h).2

end Brackets

end LayoutLint
