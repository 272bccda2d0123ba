import LayoutLint.Command
/-!
# Main — the program

The program takes the files in and below the directory it runs in, runs the command that its arguments ask for on them,
writes the files that the command changed, and prints what it says.
-/
namespace LayoutLint

/-- The files and directories in and below the directory `at` that names lead to, at most `depth` directories down.
Links are passed over. -/
def takeFiles (depth : Nat) (dir : IO.FS.DirEntry) (names : List String) (t : FileTree) : IO FileTree := do
  match depth with
  | 0 => return t
  | depth + 1 =>
    (← dir.path.readDir).foldlM (fun t entry => do
      let names := names ++ [entry.fileName]
      match (← entry.path.symlinkMetadata).type with
      | .dir => takeFiles depth entry names { t with directories := names :: t.directories }
      | .file => return { t with files := (names, ← IO.FS.readBinFile entry.path) :: t.files }
      | _ => return t) t

end LayoutLint

open LayoutLint in
def main (words : List String) : IO UInt32 := do
  let before ← takeFiles 256 ⟨(← IO.currentDir), ""⟩ [] {}
  let result := Command.runWords before words
  for (names, bytes) in result.tree.files do
    if before.file? names != some bytes then IO.FS.writeBinFile ("/".intercalate names) bytes
  IO.print result.output
  return result.exitCode.toUInt32
