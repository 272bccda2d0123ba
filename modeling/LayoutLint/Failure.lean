import LayoutLint.Document.Splice
import LayoutLint.Program
/-!
# Failure — why linting does not give an answer

Every failure is a cause with its data; the wording stands in one function for each kind of cause.
-/
namespace LayoutLint

/-- Why a file cannot be read. -/
inductive ReadError where
  | notFound
  | notDirectory
  | isDirectory
  | notText
  deriving DecidableEq, Repr

def ReadError.message : ReadError → String
  | notFound => "No such file or directory (os error 2)"
  | notDirectory => "Not a directory (os error 20)"
  | isDirectory => "Is a directory (os error 21)"
  | notText => "stream did not contain valid UTF-8"

/-- The largest size of a file that is linted. -/
def maxFileSize : Nat := 10 * 1024 * 1024

/-- Why a file is not linted. -/
inductive FileError where
  | noMetadata (path : String) (cause : ReadError)
  | notRegular (path : String)
  | tooLarge (path : String)
  | unreadable (path : String) (cause : ReadError)
  deriving DecidableEq, Repr

def FileError.message : FileError → String
  | noMetadata path cause => s!"Failed to read metadata for {path}: {cause.message}"
  | notRegular path => s!"Not a regular file: {path}"
  | tooLarge path => s!"File size exceeds limit of {maxFileSize} bytes: {path}"
  | unreadable path cause => s!"Failed to read {path}: {cause.message}"

/-- Why a configuration is refused. -/
inductive ConfigError where
  /-- The text is not JSON, in the relaxed form that configurations may have. -/
  | invalidJson
  /-- The value at a place, given as a JSON pointer, is not what a configuration may hold there. -/
  | notAllowed (pointer : String)
  /-- A number does not fit what it stands for. -/
  | notConvertible
  | invalidOverrideGlob (glob : String)
  | invalidPattern (pattern : String)
  | invalidGlob
  | unreadable (cause : ReadError)
  deriving DecidableEq, Repr

def ConfigError.message : ConfigError → String
  | invalidJson => "Invalid JSON"
  | notAllowed pointer => s!"Config validation failed at {pointer}"
  | notConvertible => "Invalid config"
  | invalidOverrideGlob glob => s!"Invalid override glob '{glob}'"
  | invalidPattern pattern => s!"Invalid pattern '{pattern}'"
  | invalidGlob => "Invalid glob pattern"
  | unreadable cause => s!"Failed to read config: {cause.message}"

inductive Failure where
  | config (cause : ConfigError)
  | file (cause : FileError)
  | parse (cause : ParseError)
  /-- Two edits own regions that conflict, each given by its rule and its region. -/
  | conflictingEdits (firstRule : String) (first : Span) (secondRule : String) (second : Span)
  | cancelled
  /-- The splices of an edit cannot be made. -/
  | invalidSplice (cause : SpliceError)
  deriving DecidableEq, Repr

def Failure.message : Failure → String
  | config cause => s!"Configuration error: {cause.message}"
  | file cause => s!"File error: {cause.message}"
  | parse cause => s!"Parse error: {cause.message}"
  | conflictingEdits firstRule first secondRule second =>
    s!"Conflicting edits: {firstRule} at {first.start}..{first.stop} overlaps " ++
      s!"{secondRule} at {second.start}..{second.stop}"
  | cancelled => "Analysis cancelled"
  | invalidSplice cause => s!"Internal error: Invalid trivia splice: {cause.message}"

end LayoutLint
