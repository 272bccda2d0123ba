import LayoutLint.Glob
/-!
# Pattern — reading glob patterns

A pattern is read from left to right. What `**` stands for depends on what is around it: it has its special meaning only
as a whole component of the pattern, or of an alternative in braces, and is like `*` elsewhere. A pattern is refused
when a bracket or brace is left open, when a brace closes none, when a range in brackets is reversed, or when a
backslash has nothing to escape.
-/
namespace LayoutLint.Glob

/-- The ranges of bytes that stand for a range of characters: the bytes of its ends, and what is between the last byte
of the one and the first of the other. -/
def byteRanges (lo hi : Char) : List (UInt8 × UInt8) :=
  let single (b : UInt8) := (b, b)
  match (utf8 lo).getLast?, (utf8 hi).head? with
  | some last, some first =>
    if lo = hi then (utf8 lo).map single
    else (utf8 lo).dropLast.map single ++ (last, first) :: (utf8 hi).tail.map single
  | _, _ => []

/-- Reads the ranges of characters up to a closing bracket, after `ranges`, the latest first: all ranges, and the length
of what was read. `openRange` tells whether a `-` asks for the end of the latest range. -/
def classBody? (ranges : List (Char × Char)) (openRange : Bool) : List Char → Option (List (Char × Char) × Nat)
  | [] => none
  | c :: r =>
    if c == ']' && !ranges.isEmpty then some (if openRange then ('-', '-') :: ranges else ranges, 1)
    else if c == '-' && !ranges.isEmpty && !openRange then (classBody? ranges true r).map fun (rs, n) => (rs, n + 1)
    else
      match openRange, ranges with
      | true, (lo, _) :: rest =>
        if c < lo then none else (classBody? ((lo, c) :: rest) false r).map fun (rs, n) => (rs, n + 1)
      | _, _ => (classBody? ((c, c) :: ranges) false r).map fun (rs, n) => (rs, n + 1)

/-- Reads a set of bytes after its opening bracket, and the length of what was read. -/
def class? (s : List Char) : Option (GlobPiece × Nat) :=
  let negated := s.head? == some '!' || s.head? == some '^'
  let start := if negated then 1 else 0
  (classBody? [] false (s.drop start)).map fun (ranges, n) =>
    (.byteIn negated (ranges.flatMap fun (lo, hi) => byteRanges lo hi), start + n)

/-- A group in braces that is not closed yet. -/
structure OpenGroup where
  /-- The pieces before the group, the latest first. -/
  before : List GlobPiece
  /-- The alternatives read in full, the latest first. -/
  alternatives : List (List GlobPiece)

/-- What was read of a pattern. -/
structure Progress where
  /-- The latest pieces of the pattern or of the innermost alternative, the latest first. -/
  pieces : List GlobPiece := []
  /-- The groups around, the innermost first. -/
  groups : List OpenGroup := []
  /-- The character before. -/
  previous : Option Char := none

namespace Progress

/-- The progress after another piece, whose last character is `c`. -/
def push (p : Progress) (piece : GlobPiece) (c : Char) : Progress :=
  { p with pieces := piece :: p.pieces, previous := some c }

/-- The progress with a `*` read. -/
def pushStar (p : Progress) : Progress := p.push .anyBytes '*'

/-- The progress with `**` read as two `*`. -/
def pushStars (p : Progress) : Progress := p.pushStar.pushStar

/-- The progress with the slash before `**` taken back and `**` as a component in its place. Several such components in
a row are one. -/
def pushComponent (p : Progress) (piece : GlobPiece) (c : Char) : Progress :=
  match p.pieces with
  | .leading :: rest => { p with pieces := .leading :: rest, previous := some c }
  | .trailing :: rest => { p with pieces := .trailing :: rest, previous := some c }
  | pieces => { p with pieces := piece :: pieces.tail, previous := some c }

/-- The progress after `**` in front of `rest`, and whether that takes a slash of `rest` along. -/
def doubleStar (p : Progress) (rest : List Char) : Progress × Bool :=
  let inGroup := !p.groups.isEmpty
  let atStart := p.previous == some '/' || (inGroup && (p.previous == some ',' || p.previous == some '{'))
  let next := rest.head?
  if p.pieces.isEmpty then
    if next == some '/' then (p.push .leading '/', true)
    else if next == none then (p.push .leading '*', false)
    else (p.pushStars, false)
  else if !atStart then (p.pushStars, false)
  else if next == none || (inGroup && (next == some ',' || next == some '}')) then
    (p.pushComponent .trailing '*', false)
  else if next == some '/' then (p.pushComponent .between '/', true)
  else (p.pushStars, false)

def openGroup (p : Progress) : Progress := ⟨[], ⟨p.pieces, []⟩ :: p.groups, some '{'⟩

/-- Is a piece a group without alternatives? -/
def isVoid : GlobPiece → Bool
  | .oneOf [] => true
  | _ => false

/-- The progress after the brace that closes a group. Alternatives that match the empty text only are left out. -/
def closeGroup? (p : Progress) : Option Progress :=
  match p.groups with
  | [] => none
  | g :: groups =>
    let alternatives := (p.pieces :: g.alternatives).reverse.map List.reverse
    some ⟨.oneOf (alternatives.filter fun ps => !ps.all isVoid) :: g.before, groups, some '}'⟩

/-- The progress after a comma, which separates the alternatives of a group. -/
def comma (p : Progress) : Progress :=
  match p.groups with
  | [] => p.push (.literal ',') ','
  | g :: groups => ⟨[], { g with alternatives := p.pieces :: g.alternatives } :: groups, some ','⟩

end Progress

/-- Reads the rest of a pattern. -/
def readPieces? (p : Progress) (s : List Char) : Option (List GlobPiece) :=
  match s with
  | [] => if p.groups.isEmpty then some p.pieces.reverse else none
  | '*' :: '*' :: r => readPieces? (p.doubleStar r).1 (r.drop (if (p.doubleStar r).2 then 1 else 0))
  | '\\' :: r =>
    match r with
    | [] => none
    | c :: r => readPieces? (p.push (.literal c) c) r
  | '[' :: r =>
    match class? r with
    | some (piece, n) => readPieces? (p.push piece ']') (r.drop n)
    | none => none
  | '}' :: r =>
    match p.closeGroup? with
    | some q => readPieces? q r
    | none => none
  | '?' :: r => readPieces? (p.push .anyByte '?') r
  | '*' :: r => readPieces? p.pushStar r
  | '{' :: r => readPieces? p.openGroup r
  | ',' :: r => readPieces? p.comma r
  | c :: r => readPieces? (p.push (.literal c) c) r
termination_by s.length
decreasing_by
  all_goals simp only [List.length_drop, List.length_cons]; omega

/-- The pattern that a text writes, if it writes one. -/
def ofText? (text : String) : Option Glob := (readPieces? {} text.toList).map (⟨·⟩)

end LayoutLint.Glob
