import LayoutLint.Rule
import LayoutLint.Scan.FinalBreak
import LayoutLint.Scan.LongLine
import LayoutLint.Scan.TrailingBlank
/-!
# Lines — the rules on lines and line breaks

White space at the end of a line, the end of the file, the length of lines, and operators that stand in front of a line
break. The first two can be mended. The first and the third look at the whole text and stop when the analysis is called
off: the first at a line break between tokens, the third at any line.
-/
namespace LayoutLint

namespace RuleContext

/-- The white space at the ends of lines. -/
def trailingBlanks (c : RuleContext) : Except Failure (List Span) := do
  if c.document.trivia.any (·.trivia.isEndOfLine) then c.goOn
  return c.document.trailingBlanks

/-- The lines with more than `limit` characters. -/
def longLines (c : RuleContext) (limit : Nat) : Except Failure (List Span) := do
  c.goOn
  return c.document.longLines limit

end RuleContext

namespace Rule

def noTrailingWhitespace : Rule where
  id := "no-trailing-whitespace"
  description := "Lines should not contain trailing whitespaces"
  fixable := true
  checkDocument c := do
    return (← c.trailingBlanks).map (c.violation "no-trailing-whitespace" "Line contains trailing whitespaces")
  fix d span := d.trailingBlankEdit? "no-trailing-whitespace" span

def finalNewline : Rule where
  id := "final-newline"
  description := "The file must end with a single newline"
  fixable := true
  checkDocument c :=
    return (c.document.finalBreak?.map fun found =>
      c.violation "final-newline" "The file must end with a single newline." found.span).toList
  fix d span := d.finalBreakEdit? "final-newline" span

def maxLineLength : Rule where
  id := "max-line-length"
  description := "Line should not be too long"
  checkDocument c := do
    return (← c.longLines c.options.maxLineLength).map (c.violation "max-line-length" "Line is too long")

def operatorAtLineStart : Rule where
  id := "operator-at-line-start"
  description := "Operator chaining with newline should have the operator at the beginning of a new line"
  nodeKinds := [.operator]
  checkNode c node :=
    match node with
    | .operator token _ =>
      if (c.document.token token).trailing.any Trivia.isEndOfLine then
        [c.violation "operator-at-line-start"
          "Operator chaining with newline should have the operator at the beginning of a new line"
          (c.document.span token)]
      else []
    | _ => []

end Rule

end LayoutLint
