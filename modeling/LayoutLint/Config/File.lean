import LayoutLint.Config.Reader
import LayoutLint.FileTree
/-!
# File — configurations in files

A configuration that comes from a file has the directory of the file for its base directory.
-/
namespace LayoutLint.Config

/-- The file with the configuration of a directory, if there is one. -/
def find? (t : FileTree) (directory : String) : Option String :=
  (fileNames.map (Path.join directory)).find? t.isFileAt

/-- The configuration in a file. -/
def ofFile (t : FileTree) (path : String) : Except ConfigError Config :=
  match t.readText path with
  | .error cause => .error (.unreadable cause)
  | .ok text => (ofText text).map fun c => { c with baseDirectory := (Path.parent? path).filter (!·.isEmpty) }

/-- The configuration of a directory: that in its file, or the default. -/
def ofDirectory (t : FileTree) (directory : String) : Except ConfigError Config :=
  match find? t directory with
  | some path => ofFile t path
  | none => .ok {}

end LayoutLint.Config
