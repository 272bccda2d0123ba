import LayoutLint.Failure
import LayoutLint.Glob.FileName
import LayoutLint.Glob.Pattern
/-!
# FileFilter — which files are linted

Files are chosen by patterns for the files to lint and patterns for the files to leave alone; the latter win.
-/
namespace LayoutLint

structure FileFilter where
  /-- Patterns for the files to lint; without any, all files. -/
  included : List Glob := []
  /-- Patterns for the files to leave alone. -/
  excluded : List Glob := []

namespace FileFilter

def readGlobs (patterns : List String) : Except ConfigError (List Glob) :=
  patterns.mapM fun pattern => (Glob.ofText? pattern).elim (.error .invalidGlob) .ok

/-- The filter with the patterns that texts write. -/
def ofPatterns (included excluded : List String) : Except ConfigError FileFilter := do
  return ⟨← readGlobs included, ← readGlobs excluded⟩

/-- Is a file left alone? -/
def ignores (f : FileFilter) (path : String) : Bool :=
  f.excluded.any (·.picks path) || (!f.included.isEmpty && !f.included.any (·.picks path))

end FileFilter

end LayoutLint
