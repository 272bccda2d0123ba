import LayoutLint.Line
import LayoutLint.Text.Find
/-!
# Literal — how far a string or character literal reaches

A string literal opens with any number of `$` and at most one `@`, then quotes. Three quotes or more open a raw string,
which the same number of quotes closes. Otherwise a verbatim string (`@`) writes its quotes twice and may hold line
breaks; a regular one escapes with a backslash and stops before the end of its line. In an interpolated string (`$`)
braces open holes, which hold a program of their own, with literals of its own. A suffix `u8` belongs to the literal.

Both kinds of literal may be unterminated. Lengths count characters.
-/
namespace LayoutLint.Literal

open Text (find?)

/-- The number of characters of the character literal at the head of a text, after its opening quote. -/
def charBodyLength : List Char → Nat
  | [] => 0
  | '\\' :: _ :: r => charBodyLength r + 2
  | c :: r => if c == '\'' then 1 else if isBreakChar c then 0 else charBodyLength r + 1

/-- What stands before the quotes of a string literal. -/
structure Sigils where
  length : Nat
  interpolated : Bool
  verbatim : Bool

/-- Reads the sigils of a string literal, any number of `$` and at most one `@`. -/
def sigils (seen : Sigils) : List Char → Sigils
  | '$' :: r => sigils { seen with length := seen.length + 1, interpolated := true } r
  | '@' :: r => if seen.verbatim then seen else sigils { seen with length := seen.length + 1, verbatim := true } r
  | _ => seen

/-- The number of quotes at the head of a text. -/
def quoteRun (s : List Char) : Nat := (s.takeWhile (· == '"')).length

/-- The length of a raw string after its sigils: `quotes` quotes, then up to the next run of as many. -/
def rawLength (quotes : Nat) (s : List Char) : Nat :=
  match find? (List.replicate quotes '"') (s.drop quotes) with
  | some n => quotes + n + quotes
  | none => s.length

/-- The length of the suffix of a string literal. -/
def suffixLength (s : List Char) : Nat :=
  if "u8".toList.isPrefixOf s || "U8".toList.isPrefixOf s then 2 else 0

mutual

/-- The length of the string literal at the head of `s`; `none` when there is none. -/
def stringLength? (s : List Char) : Option Nat :=
  let before := sigils ⟨0, false, false⟩ s
  match _h : s.drop before.length with
  | '"' :: body =>
    let quotes := quoteRun ('"' :: body)
    let n :=
      if 3 ≤ quotes then before.length + rawLength quotes ('"' :: body)
      else stringBodyEnd before.verbatim before.interpolated 0 (before.length + 1) body
    some (n + suffixLength (s.drop n))
  | _ => none
termination_by 2 * s.length
decreasing_by
  have := congrArg List.length _h
  simp only [List.length_drop, List.length_cons] at this
  omega

/-- How many characters a string with quotes of its own reaches, `n` of which are read and before the rest `s`. The
rest stands inside `holes` braces of a hole, outside of any hole when that is zero. -/
def stringBodyEnd (verbatim interpolated : Bool) (holes n : Nat) (s : List Char) : Nat :=
  match s with
  | [] => n
  | c :: r =>
    if holes = 0 then
      if c == '"' then
        if verbatim && r.head? == some '"' then stringBodyEnd verbatim interpolated 0 (n + 2) r.tail else n + 1
      else if c == '\\' && !verbatim then
        if r.isEmpty then n + 1 else stringBodyEnd verbatim interpolated 0 (n + 2) r.tail
      else if isBreakChar c && !verbatim then n
      else if c == '{' && interpolated then
        if r.head? == some '{' then stringBodyEnd verbatim interpolated 0 (n + 2) r.tail
        else stringBodyEnd verbatim interpolated 1 (n + 1) r
      else stringBodyEnd verbatim interpolated 0 (n + 1) r
    else if c == '{' then stringBodyEnd verbatim interpolated (holes + 1) (n + 1) r
    else if c == '}' then stringBodyEnd verbatim interpolated (holes - 1) (n + 1) r
    else if c == '\'' then
      stringBodyEnd verbatim interpolated holes (n + 1 + charBodyLength r) (r.drop (charBodyLength r))
    else if c == '"' || c == '$' || c == '@' then
      match stringLength? (c :: r) with
      | some m => stringBodyEnd verbatim interpolated holes (n + m) (r.drop (m - 1))
      | none => stringBodyEnd verbatim interpolated holes (n + 1) r
    else stringBodyEnd verbatim interpolated holes (n + 1) r
termination_by 2 * s.length + 1
decreasing_by
  all_goals (simp only [List.length_cons, List.length_drop, List.length_tail]; omega)

end

end LayoutLint.Literal
