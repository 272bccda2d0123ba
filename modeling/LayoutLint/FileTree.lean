import LayoutLint.Failure
import LayoutLint.Path
/-!
# FileTree — the files of a directory

A tree holds files by the names that lead to them from the top, and the directories that may be empty. A path is looked
up part by part, each part in what the parts before it led to, so a path goes on only through directories, and two
points lead back up, though not above the top.
-/
namespace LayoutLint

structure FileTree where
  files : List (List String × ByteArray) := []
  directories : List (List String) := []

namespace FileTree

/-- The content of the file that names lead to. -/
def file? (t : FileTree) (names : List String) : Option ByteArray := t.files.lookup names

/-- Do names lead to a directory? What leads on to something is one. -/
def isDirectory (t : FileTree) (names : List String) : Bool :=
  names.isEmpty || t.directories.any names.isPrefixOf ||
    t.files.any fun (file, _) => names.isPrefixOf file && names.length < file.length

/-- The names after one more part of a path. -/
def enter (t : FileTree) (names : List String) (part : String) : Except ReadError (List String) :=
  if !t.isDirectory names then .error .notDirectory
  else if Path.isFiller part then .ok names
  else if part == ".." then if names.isEmpty then .error .notFound else .ok names.dropLast
  else
    let next := names ++ [part]
    if (t.file? next).isSome || t.isDirectory next then .ok next else .error .notFound

/-- The names that a path leads to. Absolute paths lead nowhere. -/
def locate (t : FileTree) (path : String) : Except ReadError (List String) :=
  if path.isEmpty || path.startsWith "/" then .error .notFound
  else ((Text.splitOn '/' path.toList).map String.ofList).foldlM t.enter []

/-- Is there a file at a path? -/
def isFileAt (t : FileTree) (path : String) : Bool :=
  match t.locate path with
  | .ok names => (t.file? names).isSome
  | .error _ => false

/-- Is there a directory at a path? -/
def isDirectoryAt (t : FileTree) (path : String) : Bool :=
  match t.locate path with
  | .ok names => t.isDirectory names
  | .error _ => false

/-- The text of the file at a path. -/
def readText (t : FileTree) (path : String) : Except ReadError String := do
  match t.file? (← t.locate path) with
  | none => .error .isDirectory
  | some bytes => (String.fromUTF8? bytes).elim (.error .notText) .ok

/-- The files with one more, or with another content for one. -/
def put (names : List String) (bytes : ByteArray) : List (List String × ByteArray) → List (List String × ByteArray)
  | [] => [(names, bytes)]
  | (file, content) :: rest =>
    if file = names then (names, bytes) :: rest else (file, content) :: put names bytes rest

/-- The tree with a file written. -/
def write (t : FileTree) (names : List String) (bytes : ByteArray) : FileTree :=
  { t with files := put names bytes t.files }

/-- The names that lead from a directory to the files in and below it. -/
def filesBelow (t : FileTree) (directory : List String) : List (List String) :=
  t.files.filterMap fun (file, _) =>
    if directory.isPrefixOf file && directory.length < file.length then some (file.drop directory.length) else none

end FileTree

end LayoutLint
