import PackageManifest.CommandLine.Options
import PackageManifest.Settings.Lookup

/-!
# Files that matter to a run

A run looks only at the files that its options name, at the directories on the way to them, and at
the places where settings can be.
-/

namespace PackageManifest.CommandLine

/-- The locations that names lead through, one after the other. -/
def visitedFrom (location : Location) : List String → List Location
  | [] => [location]
  | name :: names =>
    location ::
      (if name = "" || name = "." then visitedFrom location names
      else if name = ".." then visitedFrom location.dropLast names
      else visitedFrom (location ++ [name]) names)

def visited (home : Location) (path : String) : List Location :=
  visitedFrom (if path.startsWith "/" then [] else home) (path.splitOn "/")

def manifestDirectory (home : Location) (options : Options) : Location :=
  (visited home (FileTree.parentPath options.manifest)).getLastD home

def settingsPlaces (directory : Location) : List Location :=
  (List.range (directory.length + 1)).flatMap fun depth =>
    Settings.fileNames.map fun name => directory.take depth ++ [name]

def watched (home : Location) (options : Options) : List Location :=
  let paths := options.manifest :: (options.packageDump.toList ++ options.config.toList)
  (paths.flatMap (visited home) ++ settingsPlaces (manifestDirectory home options)).eraseDups

end PackageManifest.CommandLine
