import LayoutLint.Syntax.Recognize
/-!
# Program — a source text read

A program is a document with its syntax tree. Reading one fails when the text is too large, or when recognition cannot
find the end of a statement; whatever else is wrong with a text shows in fewer nodes only.
-/
namespace LayoutLint

/-- The name of the language that programs are written in. -/
def languageName : String := "csharp"

/-- The endings of the names of files that hold programs. -/
def fileExtensions : List String := ["cs", "csx"]

/-- Does a file with this ending hold a program? Upper and lower case letters count as equal. -/
def handlesExtension (extension : String) : Bool :=
  fileExtensions.any fun e => e.toList == extension.toList.map Char.toLower

/-- Why a text is not read. -/
inductive ParseError where
  | tooLarge (bytes : Nat)
  | document (cause : DocumentError)
  /-- The end of some statement cannot be found. -/
  | endlessStatement
  deriving DecidableEq, Repr

def ParseError.message : ParseError → String
  | tooLarge bytes => s!"Invalid source: source is {bytes} bytes, the limit is {maxBytes}"
  | document cause => s!"Internal parser error: {cause.message}"
  | endlessStatement => "Internal parser error: a statement has no end"

structure Program where
  document : Document
  tree : SyntaxTree

/-- Reads a text. -/
def Program.parse (source : String) : Except ParseError Program :=
  if maxBytes < source.utf8ByteSize then .error (.tooLarge source.utf8ByteSize)
  else
    match Document.ofSource source with
    | .error cause => .error (.document cause)
    | .ok document =>
      match SyntaxTree.ofDocument? document with
      | none => .error .endlessStatement
      | some tree => .ok { document, tree }

end LayoutLint
