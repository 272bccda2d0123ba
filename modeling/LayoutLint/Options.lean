import LayoutLint.Text.Blank
import LayoutLint.Text.Split
/-!
# Options — what an analysis can be told

Options come as raw texts from a provider, which may answer differently for each file. Each option has a key, a default
and a reader; a text that the reader refuses counts as absent. Rules see the values that were read, never the provider.
-/
namespace LayoutLint

/-- A source of raw option values: the value of a key for the file at a path, if a path is known. -/
abbrev OptionProvider := (path : Option String) → (key : String) → Option String

/-- An option with values in `α`. -/
structure AnalyzerOption (α : Type) where
  key : String
  default : α
  read : List Char → Option α

/-- The value of the option for a file. -/
def AnalyzerOption.resolve {α : Type} (option : AnalyzerOption α) (provider : OptionProvider)
    (path : Option String) : α :=
  match provider path option.key with
  | some raw => (option.read (Text.trimChars raw.toList)).getD option.default
  | none => option.default

/-- The largest number that is read. -/
def maxNumber : Nat := 18446744073709551615

/-- The number that decimal digits write, after the number `n`. -/
def readDigits (n : Nat) : List Char → Option Nat
  | [] => some n
  | c :: r => if c.isDigit then readDigits (n * 10 + (c.toNat - 48)) r else none

/-- Reads a number written in decimal digits, with or without a plus sign. -/
def readNumber (cs : List Char) : Option Nat :=
  let digits := match cs with
    | '+' :: r => r
    | _ => cs
  if digits.isEmpty then none else (readDigits 0 digits).filter (· ≤ maxNumber)

/-- The largest number of characters a line may have. -/
def maxLineLengthOption : AnalyzerOption Nat where
  key := "max_line_length"
  default := 180
  read cs := (readNumber cs).filter (0 < ·)

/-- The methods to be taken for extension methods, as names or as names with their containers. -/
def extensionMethodsOption : AnalyzerOption (List String) where
  key := "extension_methods"
  default := []
  read cs :=
    some (((Text.splitOn ',' cs).map fun part => String.ofList (Text.trimChars part)).filter (!·.isEmpty))

/-- The options of one analysis. -/
structure AnalyzerOptions where
  maxLineLength : Nat := maxLineLengthOption.default
  extensionMethods : List String := extensionMethodsOption.default
  deriving DecidableEq, Repr

namespace AnalyzerOptions

/-- The options for a file. -/
def resolve (provider : OptionProvider) (path : Option String) : AnalyzerOptions where
  maxLineLength := maxLineLengthOption.resolve provider path
  extensionMethods := extensionMethodsOption.resolve provider path

/-- The containers of the extension methods with a name. A method given without container has none. -/
def containersOf (o : AnalyzerOptions) (name : String) : List (Option String) :=
  o.extensionMethods.filterMap fun entry =>
    let (container, method) := Text.splitLast '.' entry.toList
    if String.ofList method = name then some (container.map String.ofList) else none

end AnalyzerOptions

end LayoutLint
