import LayoutLint.FileFilter
import LayoutLint.FileTree
import LayoutLint.Program
/-!
# Discovery — the files that patterns name

A pattern that is the path of a file names that file, one that is the path of a directory names the programs in and
below it, and any other is a glob pattern for the files of a base directory. Below a directory some directories are
passed over, since what they hold is not written by people. Files are listed once each, in the order of their paths.
-/
namespace LayoutLint

/-- Directories with what is built or kept by tools. -/
def skippedDirectories : List String := ["bin", "obj", ".git", ".vs"]

/-- Does a path name a program, by its ending? -/
def isProgramPath (path : String) : Bool := (Path.extension? path).any handlesExtension

/-- The first of each run of paths of the same place. -/
def dropSamePlaces : List String → List String
  | [] => []
  | path :: rest =>
    match dropSamePlaces rest with
    | [] => [path]
    | next :: others => if Path.same path next then path :: others else path :: next :: others

namespace FileTree

/-- A file that was come upon: its path, and its path from where the search began. -/
structure Visit where
  path : String
  relative : String

/-- The files in and below a directory, or the one file, at a path. -/
def visits (t : FileTree) (root : String) : List Visit :=
  match t.locate root with
  | .error _ => []
  | .ok names =>
    if (t.file? names).isSome then [⟨root, ""⟩]
    else
      ((t.filesBelow names).filter fun file => !file.dropLast.any skippedDirectories.contains).map fun file =>
        let relative := "/".intercalate file
        ⟨Path.join root relative, relative⟩

/-- The files that a pattern names, or the glob pattern that it is. -/
def namedBy (t : FileTree) (f : FileFilter) (pattern : String) : Except ConfigError (List String ⊕ Glob) :=
  if t.isFileAt pattern then .ok (.inl (if f.ignores pattern then [] else [pattern]))
  else if t.isDirectoryAt pattern then
    .ok (.inl (((t.visits pattern).filter fun v => isProgramPath v.path && !f.ignores v.relative).map (·.path)))
  else
    match Glob.ofText? pattern with
    | some g => .ok (.inr g)
    | none => .error (.invalidPattern pattern)

/-- The files that patterns name. -/
def discover (t : FileTree) (f : FileFilter) (baseDirectory : String) (patterns : List String) :
    Except ConfigError (List String) := do
  let named ← patterns.mapM (t.namedBy f)
  let globs := named.filterMap (·.getRight?)
  let matched :=
    if globs.isEmpty then []
    else
      ((t.visits baseDirectory).filter fun v => globs.any (·.picks v.relative) && !f.ignores v.relative).map (·.path)
  let paths := named.flatMap (Sum.elim id fun _ => []) ++ matched
  return dropSamePlaces (paths.mergeSort Path.le)

end FileTree

end LayoutLint
