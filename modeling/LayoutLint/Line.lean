import LayoutLint.Span
import LayoutLint.Search
import LayoutLint.Text.Blank
import LayoutLint.Text.Measure
/-!
# Line — the lines of a text

A text is split at CR LF, LF and CR, a CR with its LF being one break. There is always a last line, which no break ends;
it is empty when the text is empty or ends in a break. Each line keeps its text and its break, so the lines written one
after another are the text (`concat_split`).
-/
namespace LayoutLint

open Text (width splitAtByte?)

/-- Does the character belong to a line break? -/
def isBreakChar (c : Char) : Bool := c == '\r' || c == '\n'

/-- The number of characters in the line break at the head of a text, zero when there is none. -/
def breakLength : List Char → Nat
  | '\r' :: '\n' :: _ => 2
  | c :: _ => if isBreakChar c then 1 else 0
  | [] => 0

/-- One line: where it starts, what it holds, and the break that ends it, empty on the last line. -/
structure Line where
  start : Nat
  text : String
  lineBreak : String
  deriving DecidableEq, Repr, Inhabited

namespace Line

/-- Where the text of the line ends. -/
def stop (l : Line) : Nat := l.start + l.text.utf8ByteSize

/-- Where the break of the line ends. -/
def breakStop (l : Line) : Nat := l.stop + l.lineBreak.utf8ByteSize

/-- The region of the line's text, its break left out. -/
def span (l : Line) : Span := ⟨l.start, l.stop⟩

def isEmpty (l : Line) : Bool := l.text.isEmpty

/-- A line of white space only. -/
def isBlank (l : Line) : Bool := Text.isBlankText l.text

def hasBreak (l : Line) : Bool := !l.lineBreak.isEmpty

/-- The number of characters in the line's text. -/
def length (l : Line) : Nat := l.text.length

/-- The number of characters of the line before `offset`: all of them when `offset` is past its text, none when `offset`
is inside a character. -/
def column (l : Line) (offset : Nat) : Nat :=
  match splitAtByte? (min offset l.stop - l.start) l.text.toList with
  | some (front, _) => front.length
  | none => 0

end Line

/-- The lines of a text that starts at offset `start`, put after `done`. -/
def splitLinesFrom (done : Array Line) (start : Nat) (cs : List Char) : Array Line :=
  let text := cs.takeWhile (!isBreakChar ·)
  let rest := cs.dropWhile (!isBreakChar ·)
  match hn : breakLength rest with
  | 0 => done.push ⟨start, String.ofList text, ""⟩
  | n + 1 =>
    let line : Line := ⟨start, String.ofList text, String.ofList (rest.take (n + 1))⟩
    splitLinesFrom (done.push line) line.breakStop (rest.drop (n + 1))
termination_by cs.length
decreasing_by
  have hrest : (cs.dropWhile (!isBreakChar ·)).length ≤ cs.length := (List.dropWhile_suffix _).length_le
  have hpos : 0 < (cs.dropWhile (!isBreakChar ·)).length := by
    cases h : cs.dropWhile (!isBreakChar ·) with
    | nil => simp [rest, h, breakLength] at hn
    | cons => simp
  simp only [List.length_drop]
  omega

/-- The lines of a text. -/
structure LineTable where
  lines : Array Line
  deriving DecidableEq, Repr, Inhabited

namespace LineTable

/-- The lines of a text. Where they start is counted without a bound; offsets of 32 bits can tell it of a text of at
most `maxBytes` bytes, as that of a document is. -/
def ofString (s : String) : LineTable := ⟨splitLinesFrom #[] 0 s.toList⟩

/-- The number of lines. -/
def size (t : LineTable) : Nat := t.lines.size

/-- The number, from zero, of the line that holds `offset`. A line's break belongs to it, and the last line holds every
offset past the end. -/
def lineIndex (t : LineTable) (offset : Nat) : Nat :=
  firstWhere (fun i => match t.lines[i]? with | some l => offset < l.start | none => true) 0 t.size - 1

/-- The line and the column of `offset`. The number of a line fits in 32 bits when the text has at most `maxBytes` bytes
and fewer than `maxBytes` line breaks. -/
def position (t : LineTable) (offset : Nat) : Position :=
  let i := t.lineIndex offset
  match t.lines[i]? with
  | some l => ⟨i + 1, l.column offset⟩
  | none => ⟨i + 1, 0⟩

/-- The place of a span. -/
def location (t : LineTable) (s : Span) : Location := ⟨t.position s.start, t.position s.stop⟩

end LineTable

/-- The lines with their breaks, written one after another. -/
def concatLines (lines : List Line) : List Char := lines.flatMap fun l => l.text.toList ++ l.lineBreak.toList

/-- **Splitting loses nothing.** -/
theorem concat_splitLinesFrom (done : Array Line) (start : Nat) (cs : List Char) :
    concatLines (splitLinesFrom done start cs).toList = concatLines done.toList ++ cs := by
  fun_induction splitLinesFrom done start cs with
  | case1 done start cs text rest hn =>
    have hrest : rest = [] := by
      cases h : rest with
      | nil => rfl
      | cons c r =>
        have hc : isBreakChar c = true := by
          have := List.head?_dropWhile_not (fun c => !isBreakChar c) cs
          simp only [rest] at h
          simpa [h] using this
        rw [h] at hn
        rcases r with _ | ⟨d, r⟩ <;> revert hn <;> unfold breakLength <;> split <;> simp_all
    have htext : text ++ rest = cs := List.takeWhile_append_dropWhile
    rw [hrest, List.append_nil] at htext
    simp [concatLines, htext]
  | case2 done start cs text rest n hn line ih =>
    have htext : text ++ rest = cs := List.takeWhile_append_dropWhile
    rw [ih]
    simp only [concatLines, line, Array.toList_push, List.flatMap_append, List.flatMap_cons, List.flatMap_nil,
      String.toList_ofList, List.append_nil, List.append_assoc, List.take_append_drop, htext]

/-- **The lines of a text are the text.** -/
theorem concat_split (s : String) : concatLines (LineTable.ofString s).lines.toList = s.toList := by
  rw [LineTable.ofString, concat_splitLinesFrom]
  rfl

end LayoutLint
