import PackageManifest.CommandLine.Run
import PackageManifest.CommandLine.Watched

/-!
# The program

Reads the files that matter to a run, runs, writes the files that the run has changed and prints.
-/

open PackageManifest
open PackageManifest.CommandLine

namespace PackageManifest.Program

def directoryError : UInt32 := 21

def look (tree : FileTree) (location : Location) : IO FileTree := do
  try
    let bytes ← IO.FS.readBinFile (FileTree.showPath location)
    return { tree with files := (location, bytes) :: tree.files }
  catch error =>
    let isDirectory := match error with
      | .inappropriateType _ code _ => code == directoryError
      | _ => false
    return if isDirectory then { tree with directories := location :: tree.directories } else tree

/-- The files that matter to a run with the given arguments. -/
def observe (home : Location) (arguments : List String) : IO FileTree :=
  let empty : FileTree := { home, files := [], directories := [] }
  match Options.parse arguments with
  | .error _ => return empty
  | .ok options => (watched home options).foldlM look empty

def store (before after : FileTree) : IO Unit :=
  after.files.forM fun (location, bytes) =>
    if before.file? location == some bytes then pure ()
    else IO.FS.writeBinFile (FileTree.showPath location) bytes

end PackageManifest.Program

def main (arguments : List String) : IO UInt32 := do
  let directory ← IO.currentDir
  let home := ((toString directory).splitOn "/").filter (· != "")
  let tree ← Program.observe home arguments
  let plain := (← IO.getEnv "NO_COLOR").isSome
  let ending := run tree plain arguments
  Program.store tree ending.tree
  IO.eprint ending.output.stderr
  IO.print ending.output.stdout
  return ending.code.toUInt32
