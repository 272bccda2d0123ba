import LayoutLint.Json.Value
import LayoutLint.Text.Blank
import LayoutLint.Text.Find
import LayoutLint.Text.Number
/-!
# Token — the tokens of relaxed JSON

Relaxed JSON is JSON as people write it by hand: it has comments, strings in single quotes and over several lines,
hexadecimal numbers, plus signs, and names without quotes. A number and a name keep their text, since a number may stand
for a name. Numbers are decimal in general; those that 64 bits hold are integers (`JsonValue.ofNumeral`).
-/
namespace LayoutLint

inductive JsonToken where
  | openBrace
  | closeBrace
  | openBracket
  | closeBracket
  | comma
  | colon
  | null
  | bool (value : Bool)
  | string (value : String)
  /-- A number, as it is written. -/
  | number (text : List Char)
  /-- A name without quotes. -/
  | word (text : List Char)
  deriving DecidableEq, Repr

def hexDigit? (c : Char) : Option Nat :=
  if c.isDigit then some (c.toNat - 48)
  else if 'a' ≤ c ∧ c ≤ 'f' then some (c.toNat - 87)
  else if 'A' ≤ c ∧ c ≤ 'F' then some (c.toNat - 55)
  else none

/-- The number that hexadecimal digits write; `none` when another character is among them. -/
def hexNumber? (digits : List Char) : Option Nat :=
  digits.foldlM (fun n c => (hexDigit? c).map (n * 16 + ·)) 0

/-- The number that decimal digits write. -/
def decimalNumber (digits : List Char) : Nat := digits.foldl (fun n c => n * 10 + (c.toNat - 48)) 0

/-! ## Numbers -/

/-- The number of characters of a sign. -/
def signLength : List Char → Nat
  | c :: _ => if c == '+' || c == '-' then 1 else 0
  | [] => 0

/-- The number of decimal digits at the head of a text. -/
def digitRun (s : List Char) : Nat := (s.takeWhile Char.isDigit).length

/-- The length of a fraction at the head of a text, with its point. A point asks for digits. -/
def fractionLength? : List Char → Option Nat
  | '.' :: r => if digitRun r = 0 then none else some (digitRun r + 1)
  | _ => some 0

/-- The length of an exponent at the head of a text, with its letter. The letter asks for digits. -/
def exponentLength? : List Char → Option Nat
  | c :: r =>
    if c == 'e' || c == 'E' then
      let n := digitRun (r.drop (signLength r))
      if n = 0 then none else some (1 + signLength r + n)
    else some 0
  | [] => some 0

/-- Do these characters open a hexadecimal number? -/
def isHexMark : List Char → Bool
  | '0' :: x :: _ => x == 'x' || x == 'X'
  | _ => false

/-- The length of the number at the head of a text. A zero stands alone before the point. -/
def numeralLength? (s : List Char) : Option Nat :=
  let sign := signLength s
  let body := s.drop sign
  if isHexMark body then
    let n := ((body.drop 2).takeWhile fun c => (hexDigit? c).isSome).length
    if n = 0 then none else some (sign + 2 + n)
  else do
    let whole := if body.head? == some '0' then 1 else digitRun body
    if whole = 0 then none
    let fraction ← fractionLength? (body.drop whole)
    let exponent ← exponentLength? (body.drop (whole + fraction))
    return sign + whole + fraction + exponent

/-- The number that digits with a sign write. -/
def signedNumber (s : List Char) : Int :=
  let n : Int := decimalNumber (s.drop (signLength s))
  if s.head? == some '-' then -n else n

/-- The parts of a number that is not hexadecimal. -/
def decimalOf (s : List Char) : Decimal :=
  let body := s.drop (signLength s)
  let whole := body.takeWhile Char.isDigit
  let rest := body.drop whole.length
  let fraction := (rest.take ((fractionLength? rest).getD 0)).drop 1
  let exponent := (rest.dropWhile fun c => c != 'e' && c != 'E').drop 1
  { negative := s.head? == some '-'
    mantissa := decimalNumber (whole ++ fraction)
    exponent := signedNumber exponent - fraction.length }

/-- The integers that are kept as such: those that 64 bits hold, with or without sign. -/
def isMachineInteger (n : Int) : Bool := decide (-9223372036854775808 ≤ n ∧ n ≤ 18446744073709551615)

/-- The value of a number, given by its text. Digits alone are an integer where 64 bits hold it, and minus zero is not
an integer. A number out of all range is taken for a string. -/
def JsonValue.ofNumeral (s : List Char) : JsonValue :=
  let body := s.drop (signLength s)
  if isHexMark body then
    match hexNumber? (body.drop 2) with
    | some n =>
      if n ≤ 9223372036854775807 then .integer (if s.head? == some '-' then -n else n) else .string (String.ofList s)
    | none => .string (String.ofList s)
  else
    let d := decimalOf s
    let n := signedNumber s
    if body.all Char.isDigit && isMachineInteger n && !(d.negative && d.mantissa == 0) then .integer n
    else if d.isFinite then .decimal d
    else .string (String.ofList s)

/-! ## Strings -/

/-- The character that a character after a backslash stands for. A quote is escaped only in its own kind of string. -/
def unescape? (quote : Char) : Char → Option Char
  | '"' => if quote == '"' then some '"' else none
  | '\'' => if quote == '\'' then some '\'' else none
  | '\\' => some '\\'
  | '/' => some '/'
  | 'b' => some '\x08'
  | 'f' => some '\x0c'
  | 'n' => some '\n'
  | 'r' => some '\r'
  | 't' => some '\t'
  | _ => none

/-- The character that two surrogates stand for. -/
def surrogatePair? (high low : Nat) : Option Char :=
  if 0xD800 ≤ high ∧ high < 0xDC00 ∧ 0xDC00 ≤ low ∧ low < 0xE000 then
    some (Char.ofNat (0x10000 + (high - 0xD800) * 0x400 + (low - 0xDC00)))
  else none

/-- The string with a character, written with `length` characters, in front. -/
def consChar (c : Char) (length : Nat) : Option (List Char × Nat) → Option (List Char × Nat) :=
  Option.map fun (value, n) => (c :: value, length + n)

/-- The characters of a string after its opening quote, and the length of what writes them with the closing quote. -/
def stringBody? (quote : Char) : List Char → Option (List Char × Nat)
  | [] => none
  | '\\' :: 'u' :: a :: b :: c :: d :: r =>
    match hexNumber? [a, b, c, d] with
    | none => none
    | some unit =>
      if 0xD800 ≤ unit ∧ unit < 0xE000 then
        match r with
        | '\\' :: 'u' :: e :: f :: g :: h :: rest =>
          match (hexNumber? [e, f, g, h]).bind (surrogatePair? unit) with
          | some char => consChar char 12 (stringBody? quote rest)
          | none => none
        | _ => none
      else consChar (Char.ofNat unit) 6 (stringBody? quote r)
  | '\\' :: c :: r =>
    match unescape? quote c with
    | some char => consChar char 2 (stringBody? quote r)
    | none => none
  | c :: r => if c == quote then some ([], 1) else consChar c 1 (stringBody? quote r)

/-! ## Words -/

def isNameChar (c : Char) : Bool := Text.isAlphanumeric c || c == '-' || c == '_'

/-- The length of the name at the head of a text, which goes on to white space or a colon. -/
def nameLength? (s : List Char) : Option Nat :=
  let n := (s.takeWhile isNameChar).length
  if n ≠ 0 ∧ (s.drop n).head?.all (fun c => Text.isBlank c || c == ':') then some n else none

/-- Does a text start with a word that does not go on? -/
def startsWithWord (word : String) (s : List Char) : Bool :=
  word.toList.isPrefixOf s && !(s.drop word.length).head?.any Text.isAlphanumeric

/-- The token at the head of a text that does not start with white space or a comment, and its length. -/
def JsonToken.scan? (s : List Char) : Option (JsonToken × Nat) :=
  match s with
  | [] => none
  | c :: r =>
    match c with
    | '{' => some (.openBrace, 1)
    | '}' => some (.closeBrace, 1)
    | '[' => some (.openBracket, 1)
    | ']' => some (.closeBracket, 1)
    | ',' => some (.comma, 1)
    | ':' => some (.colon, 1)
    | c =>
      if c == '"' || c == '\'' then (stringBody? c r).map fun (value, n) => (.string (String.ofList value), n + 1)
      else if c == '+' || c == '-' || c.isDigit then (numeralLength? s).map fun n => (.number (s.take n), n)
      else if startsWithWord "null" s then some (.null, 4)
      else if startsWithWord "true" s then some (.bool true, 4)
      else if startsWithWord "false" s then some (.bool false, 5)
      else (nameLength? s).map fun n => (.word (s.take n), n)

/-- The length of the comment at the head of a text; zero where none starts. A slash starts nothing else. -/
def commentLength? : List Char → Option Nat
  | '/' :: '/' :: r => some ((r.takeWhile (· != '\n')).length + 2)
  | '/' :: '*' :: r => (Text.find? "*/".toList r).map (· + 4)
  | '/' :: _ => none
  | _ => some 0

/-- The tokens of a text. White space and comments stand between tokens. -/
def JsonToken.scanAll? (s : List Char) : Option (List JsonToken) :=
  match s with
  | [] => some []
  | c :: r =>
    if Text.isBlank c then scanAll? r
    else if c == '/' then
      match commentLength? (c :: r) with
      | some n => scanAll? (r.drop (n - 1))
      | none => none
    else
      match scan? (c :: r) with
      | some (t, n) => (scanAll? (r.drop (n - 1))).map (t :: ·)
      | none => none
termination_by s.length
decreasing_by
  all_goals simp only [List.length_drop, List.length_cons]; omega

end LayoutLint
