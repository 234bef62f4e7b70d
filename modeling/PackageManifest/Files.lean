/-!
# A tree of files

Files with their bytes and directories, each under the names that lead to it from the root. A path
is written with slashes, and leads on from the working directory unless a slash starts it.
-/

namespace PackageManifest

inductive FileError where
  | notFound
  | notDirectory
  | isDirectory
  | nameTooLong
  | nulInPath
  | notText
  deriving DecidableEq, Repr

def FileError.message : FileError → String
  | notFound => "No such file or directory (os error 2)"
  | notDirectory => "Not a directory (os error 20)"
  | isDirectory => "Is a directory (os error 21)"
  | nameTooLong => "File name too long (os error 36)"
  | nulInPath => "file name contained an unexpected NUL byte"
  | notText => "stream did not contain valid UTF-8"

/-- The names that lead from the root to a file or directory. -/
abbrev Location := List String

structure FileTree where
  /-- The working directory. -/
  home : Location
  files : List (Location × ByteArray)
  /-- Directories that are there even if there is nothing in them. -/
  directories : List Location

namespace FileTree

def file? (tree : FileTree) (location : Location) : Option ByteArray :=
  (tree.files.find? fun f => f.1 == location).map Prod.snd

def isFile (tree : FileTree) (location : Location) : Bool := (tree.file? location).isSome

/-- A directory is the root, is listed, or leads to something else. -/
def isDirectory (tree : FileTree) (location : Location) : Bool :=
  location.isEmpty || !tree.isFile location &&
    (location.isPrefixOf tree.home || tree.directories.any location.isPrefixOf ||
      tree.files.any fun f => location.isPrefixOf f.1)

def walk (tree : FileTree) (location : Location) : List String → Except FileError Location
  | [] => .ok location
  | name :: names =>
    if tree.isFile location then .error .notDirectory
    else if !tree.isDirectory location then .error .notFound
    else if name = "" || name = "." then walk tree location names
    else if name = ".." then walk tree location.dropLast names
    else if 255 < name.utf8ByteSize then .error .nameTooLong
    else walk tree (location ++ [name]) names

def pathLimit : Nat := 4096

def locate (tree : FileTree) (path : String) : Except FileError Location :=
  if path.toList.contains '\x00' then .error .nulInPath
  else if path = "" then .error .notFound
  else if pathLimit ≤ path.utf8ByteSize then .error .nameTooLong
  else walk tree (if path.startsWith "/" then [] else tree.home) (path.splitOn "/")

def resolve (tree : FileTree) (path : String) : Except FileError Location :=
  match tree.locate path with
  | .error e => .error e
  | .ok location =>
    if tree.isFile location || tree.isDirectory location then .ok location else .error .notFound

def pathExists (tree : FileTree) (path : String) : Bool :=
  match tree.resolve path with
  | .ok _ => true
  | .error _ => false

def readText (tree : FileTree) (path : String) : Except FileError String :=
  match tree.resolve path with
  | .error e => .error e
  | .ok location =>
    match tree.file? location with
    | none => .error .isDirectory
    | some bytes =>
      match String.fromUTF8? bytes with
      | none => .error .notText
      | some text => .ok text

def setFile (tree : FileTree) (location : Location) (bytes : ByteArray) : FileTree :=
  { tree with files := tree.files.map fun f => if f.1 == location then (f.1, bytes) else f }

def writeText (tree : FileTree) (path text : String) : Except FileError FileTree :=
  match tree.resolve path with
  | .error e => .error e
  | .ok location =>
    if tree.isFile location then .ok (tree.setFile location text.toUTF8) else .error .isDirectory

def showPath (location : Location) : String := "/" ++ "/".intercalate location

def parentPath (path : String) : String :=
  let names := path.splitOn "/"
  let rooted := path.startsWith "/"
  let named := (names.zipIdx.filter fun (n, i) => n != "" && (n != "." || (i == 0 && !rooted))).map
    Prod.fst
  let parent := "/".intercalate named.dropLast
  if rooted then "/" ++ parent else if parent = "" then "." else parent

end FileTree

end PackageManifest
