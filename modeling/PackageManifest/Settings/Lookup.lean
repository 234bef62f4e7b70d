import PackageManifest.Files
import PackageManifest.Settings.Basic

/-!
# Finding the settings

A settings file is named, or is looked for in a directory and those above it. Without one the
settings are empty.
-/

namespace PackageManifest.Settings

inductive LookupError where
  /-- The directory to start from is not there. -/
  | invalidStart (cause : FileError)
  /-- The file that is named is not there. -/
  | missing (path : String)
  | unreadable (path : String) (cause : FileError)
  | malformed (path : String)
  | zeroWidth
  deriving DecidableEq, Repr

/-- The names of settings files; the first wins. -/
def fileNames : List String := [".spm-add.toml", "spm-add.toml"]

/-- Looks in a directory, whose names are given from the last to the first, and then above it. -/
def discoverFrom (tree : FileTree) (reversed : List String) : Option Location :=
  match fileNames.find? fun name => tree.isFile (reversed.reverse ++ [name]) with
  | some name => some (reversed.reverse ++ [name])
  | none =>
    match reversed with
    | [] => none
    | _ :: above => discoverFrom tree above

def discover (tree : FileTree) (start : String) : Except LookupError (Option Location) :=
  match tree.resolve start with
  | .error cause => .error (.invalidStart cause)
  | .ok location => .ok (discoverFrom tree location.reverse)

def loadFile (tree : FileTree) (path : String) : Except LookupError Settings :=
  match tree.readText path with
  | .error cause => .error (.unreadable path cause)
  | .ok text =>
    match parse? text with
    | none => .error (.malformed path)
    | some s => if s.isValid then .ok s else .error .zeroWidth

/-- The settings in the file that is named, or in the one that is found from a directory on. That
there is no such directory does not matter. -/
def load (tree : FileTree) (custom : Option String) (start : String) :
    Except LookupError Settings :=
  match custom with
  | some path => if tree.pathExists path then loadFile tree path else .error (.missing path)
  | none =>
    match discover tree start with
    | .ok (some location) => loadFile tree (FileTree.showPath location)
    | _ => .ok {}

end PackageManifest.Settings
