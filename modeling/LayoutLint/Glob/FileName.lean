import LayoutLint.Glob
import LayoutLint.Path
/-!
# FileName — patterns that pick files

Where files are chosen, a pattern that ends in a point asks for the name of a file, and a path whose last part is two
points has none: such a pattern does not pick it, although it matches the path. A pattern that only compares a text with
the path, or with the end of the path, asks for no name.
-/
namespace LayoutLint

namespace GlobPiece

/-- Does the piece stand for a character? -/
def isLiteral : GlobPiece → Bool
  | literal _ => true
  | _ => false

/-- Does the piece stand for the character `c`? -/
def isChar (c : Char) : GlobPiece → Bool
  | literal d => c == d
  | _ => false

end GlobPiece

namespace Glob

/-- Is matching no more than comparing a text with the path, or with its end? A point alone after `*` is not such a
text, as it asks how the name ends, nor is one without a slash after `**/`, as it asks for the name. -/
def comparesText (g : Glob) : Bool :=
  match g.pieces with
  | .anyBytes :: text => text.all (·.isLiteral) && 1 < text.length
  | .leading :: .anyBytes :: text => text.all (·.isLiteral) && 1 < text.length
  | .leading :: text => text.all (·.isLiteral) && text.any (·.isChar '/')
  | text => text.all (·.isLiteral)

/-- Does the pattern end in a point and ask for the name of a file? -/
def asksForName (g : Glob) : Bool := g.pieces.getLast?.any (·.isChar '.') && !g.comparesText

/-- Does the pattern pick the file at a path? -/
def picks (g : Glob) (path : String) : Bool := g.isMatch path && !(g.asksForName && Path.endsUp path)

end Glob

end LayoutLint
