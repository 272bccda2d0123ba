import LayoutLint.Discovery
import LayoutLint.Linter
import LayoutLint.Report
/-!
# Project — linting and mending the files of a tree

Files are linted one by one; a file that cannot be linted is set apart with the reason and does not stop the others.
Only calling off the work stops it as a whole. Mending writes a file back when an edit was made, unless it is a dry run.
-/
namespace LayoutLint

/-- What became of several files: the results, and the files that failed. -/
structure FilesReport where
  results : List FileResult := []
  failures : List (String × Failure) := []

namespace Linter

/-- The text of the file at a path, if it can be linted. -/
def readSource (t : FileTree) (path : String) : Except FileError String :=
  match t.locate path with
  | .error cause => .error (.noMetadata path cause)
  | .ok names =>
    match t.file? names with
    | none => .error (.notRegular path)
    | some bytes =>
      if maxFileSize < bytes.size then .error (.tooLarge path)
      else (String.fromUTF8? bytes).elim (.error (.unreadable path .notText)) .ok

/-- Lints a file. -/
def lintFile (l : Linter) (t : FileTree) (path : String) : Except Failure FileResult := do
  let source ← (readSource t path).mapError .file
  return { path, violations := ← l.lint source path }

/-- Mends a file: its result, and the tree after it. -/
def fixFile (l : Linter) (dryRun : Bool) (t : FileTree) (path : String) : Except Failure (FileResult × FileTree) := do
  let source ← (readSource t path).mapError .file
  let report ← l.fix source path
  let names ← (t.locate path).mapError fun cause => .file (.noMetadata path cause)
  let next := if report.modified && !dryRun then t.write names report.document.text.toUTF8 else t
  return ({ path, violations := report.violations, fixesApplied := report.fixesApplied }, next)

/-- Does something with each of several files, in the tree that it was left with before. -/
def forFiles (run : FileTree → String → Except Failure (FileResult × FileTree)) (t : FileTree) :
    List String → Except Failure (FilesReport × FileTree)
  | [] => .ok ({}, t)
  | path :: paths =>
    match run t path with
    | .error .cancelled => .error .cancelled
    | .error cause =>
      (forFiles run t paths).map fun (r, t) => ({ r with failures := (path, cause) :: r.failures }, t)
    | .ok (result, t) => (forFiles run t paths).map fun (r, t) => ({ r with results := result :: r.results }, t)

/-- Lints files. -/
def lintFiles (l : Linter) (t : FileTree) (paths : List String) : Except Failure FilesReport :=
  (forFiles (fun t path => (l.lintFile t path).map (·, t)) t paths).map (·.1)

/-- Mends files. -/
def fixFiles (l : Linter) (dryRun : Bool) (t : FileTree) (paths : List String) :
    Except Failure (FilesReport × FileTree) :=
  forFiles (l.fixFile dryRun) t paths

/-- The files that patterns name, from the base directory of the configuration. -/
def discover (l : Linter) (t : FileTree) (patterns : List String) : Except Failure (List String) :=
  (t.discover l.filter (l.config.baseDirectory.getD ".") patterns).mapError .config

end Linter

end LayoutLint
