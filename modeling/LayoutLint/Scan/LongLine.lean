import LayoutLint.Document
/-!
# LongLine — lines of too many characters
-/
namespace LayoutLint

/-- The regions of the lines with more than `limit` characters, their breaks not counted. The characters of a line are
counted only when its bytes are more than the limit. -/
def Document.longLines (d : Document) (limit : Nat) : List Span :=
  (d.lines.lines.toList.filter fun l => limit < l.stop - l.start && limit < l.length).map Line.span

end LayoutLint
