import LayoutLint.Json.Value
/-!
# Printer — JSON as text

A value is written without any white space (`compact`), or over several lines, two spaces deeper in each container
(`pretty`). A string has escapes for the quote, the backslash and the control characters below U+0020; every other
character stands for itself.
-/
namespace LayoutLint.JsonValue

/-- A digit below sixteen as a character. -/
def hexChar (n : Nat) : Char := if n < 10 then Char.ofNat (48 + n) else Char.ofNat (87 + n)

/-- A character of a string as it is written. -/
def escapeChar (c : Char) : List Char :=
  match c with
  | '"' => ['\\', '"']
  | '\\' => ['\\', '\\']
  | '\n' => ['\\', 'n']
  | '\r' => ['\\', 'r']
  | '\t' => ['\\', 't']
  | '\x08' => ['\\', 'b']
  | '\x0c' => ['\\', 'f']
  | c => if c.toNat < 0x20 then ['\\', 'u', '0', '0', hexChar (c.toNat / 16), hexChar (c.toNat % 16)] else [c]

/-- A string in quotes. -/
def quoted (s : String) : String := "\"" ++ String.ofList (s.toList.flatMap escapeChar) ++ "\""

/-- What is written between the brackets of a container, indented by `indent` spaces more than the brackets when the
container stands on several lines. -/
def bracketed (opening closing : String) (indent : Option Nat) (items : List String) : String :=
  match items, indent with
  | [], _ => opening ++ closing
  | _, none => opening ++ ",".intercalate items ++ closing
  | _, some n =>
    let lineStart (n : Nat) := "\n" ++ "".pushn ' ' n
    opening ++ lineStart (n + 2) ++ ("," ++ lineStart (n + 2)).intercalate items ++ lineStart n ++ closing

mutual

/-- A value as text, on lines indented by `indent` spaces after the first, or all on one line. -/
def print (indent : Option Nat) : JsonValue → String
  | null => "null"
  | bool true => "true"
  | bool false => "false"
  | integer n => toString n
  | decimal d => d.text
  | string s => quoted s
  | array items => bracketed "[" "]" indent (printItems (indent.map (· + 2)) items)
  | object members => bracketed "\x7b" "\x7d" indent (printMembers (indent.map (· + 2)) members)

def printItems (indent : Option Nat) : List JsonValue → List String
  | [] => []
  | item :: rest => print indent item :: printItems indent rest

def printMembers (indent : Option Nat) : List (String × JsonValue) → List String
  | [] => []
  | (name, value) :: rest =>
    (quoted name ++ (if indent.isSome then ": " else ":") ++ print indent value) :: printMembers indent rest

end

/-- A value on one line, without white space. -/
def compact (v : JsonValue) : String := print none v

/-- A value over several lines. -/
def pretty (v : JsonValue) : String := print (some 0) v

end LayoutLint.JsonValue
