/-!
# Glob — patterns for paths

A pattern matches whole paths, byte by byte. Its pieces match one after another, and what may be left of a path after a
piece is a list of its ends (`GlobPiece.rests`), so a pattern matches when nothing may be left. The slash is a byte like
any other, except to the pieces that `**` stands for.
-/
namespace LayoutLint

inductive GlobPiece where
  | literal (c : Char)
  /-- `?`: one byte. -/
  | anyByte
  /-- `*`: any bytes. -/
  | anyBytes
  /-- `[…]`: one byte within the ranges, or outside of them all. -/
  | byteIn (negated : Bool) (ranges : List (UInt8 × UInt8))
  /-- `**/` at the front: nothing, or anything up to a slash. -/
  | leading
  /-- `/**/`: a slash, or two with anything between. -/
  | between
  /-- `/**` at the end: a slash and anything after it. -/
  | trailing
  /-- `{…}`: one of several patterns. Without any it matches the empty text. -/
  | oneOf (alternatives : List (List GlobPiece))

/-- The ends of a list, from the whole list to the empty one. -/
def ends {α : Type} : List α → List (List α)
  | [] => [[]]
  | a :: l => (a :: l) :: ends l

/-- The bytes of a character in UTF-8. -/
def utf8 (c : Char) : List UInt8 := String.utf8EncodeChar c

/-- The byte of a slash. -/
def slash : UInt8 := 47

/-- The ends of a text that follow a slash. -/
def endsAfterSlash (t : List UInt8) : List (List UInt8) :=
  (ends t).filterMap fun e => if e.head? == some slash then some e.tail else none

mutual

/-- What may be left of a text after a piece. -/
def GlobPiece.rests (t : List UInt8) : GlobPiece → List (List UInt8)
  | .literal c => if (utf8 c).isPrefixOf t then [t.drop (utf8 c).length] else []
  | .anyByte => if t.isEmpty then [] else [t.tail]
  | .anyBytes => ends t
  | .byteIn negated ranges =>
    match t with
    | b :: r => if (ranges.any fun (lo, hi) => lo ≤ b && b ≤ hi) != negated then [r] else []
    | [] => []
  | .leading => t :: endsAfterSlash t
  | .between => if t.head? == some slash then t.tail :: endsAfterSlash t.tail else []
  | .trailing => if t.head? == some slash then ends t.tail else []
  | .oneOf alternatives => if alternatives.isEmpty then [t] else restsOfAny t alternatives

/-- What may be left of one of several texts after pieces in a row. -/
def restsOfAll (ts : List (List UInt8)) : List GlobPiece → List (List UInt8)
  | [] => ts
  | p :: ps => restsOfAll (ts.flatMap fun t => p.rests t).eraseDups ps

/-- What may be left of a text after one of several patterns. -/
def restsOfAny (t : List UInt8) : List (List GlobPiece) → List (List UInt8)
  | [] => []
  | ps :: alternatives => restsOfAll [t] ps ++ restsOfAny t alternatives

end

/-- A pattern for paths. -/
structure Glob where
  pieces : List GlobPiece

/-- Is the pattern `**` alone? -/
def Glob.isEverything (g : Glob) : Bool :=
  match g.pieces with
  | [.leading] => true
  | _ => false

/-- Does the pattern match a path? A pattern that is `**` alone matches every path. -/
def Glob.isMatch (g : Glob) (path : String) : Bool :=
  g.isEverything || (restsOfAll [path.toList.flatMap utf8] g.pieces).contains []

end LayoutLint
