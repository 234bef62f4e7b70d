import PackageManifest.CommandLine.Options
import PackageManifest.CommandLine.Report
import PackageManifest.Package.Dump

/-!
# Runs

What a run with some arguments says and does to a tree of files.
-/

namespace PackageManifest.CommandLine

structure Ending where
  code : Nat
  output : Output
  tree : FileTree

/-- Whether output has colours: the options can turn them off, and so can the environment. -/
def coloursOn (plainEnvironment : Bool) (options : Options) : Bool :=
  !options.noColor && !plainEnvironment

def readFor (tree : FileTree) (context path : String) : Except Trouble String :=
  match tree.readText path with
  | .ok text => .ok text
  | .error cause => .error ⟨some (context ++ " " ++ path), .file path cause⟩

def packageInfo (tree : FileTree) (options : Options) : Except Trouble Package.Info :=
  let url := String.ofList (Repository.locationOf options.package.toList)
  match options.packageDump with
  | none => .ok (.ofUrl url options.knownVersions)
  | some path =>
    match readFor tree "Failed to read package dump" path with
    | .error t => .error t
    | .ok text =>
      match Package.Dump.parse? text with
      | none => .error ⟨none, .dump⟩
      | some dump => .ok (.ofDump url dump options.knownVersions)

/-- The products that are asked for. Only a package that lists its products can refuse them. -/
def chosenProducts (options : Options) (info : Package.Info) : Except Trouble (List String) :=
  if info.products.isEmpty then .ok options.products
  else
    match Package.selectProducts info options.products with
    | .ok products => .ok products
    | .error e => .error ⟨none, .selection e⟩

def dependencyOf (options : Options) (settings : Settings) (info : Package.Info) :
    Except Trouble Dependency :=
  match chosenProducts options info with
  | .error t => .error t
  | .ok products =>
    match Package.selectRequirement info options.version
        (options.branch.getD settings.branchName) with
    | .error e => .error ⟨none, .selection e⟩
    | .ok requirement =>
      let bare : Dependency := ⟨options.name.getD info.name, info.url, requirement, []⟩
      .ok (bare.withProducts products)

/-- Adds the package to the manifest; with the tree of files after it. -/
def addPackage (tree : FileTree) (options : Options) : Except Trouble (Report × FileTree) :=
  match readFor tree "Failed to read manifest" options.manifest with
  | .error t => .error t
  | .ok before =>
    match Settings.load tree options.config (FileTree.parentPath options.manifest) with
    | .error e => .error ⟨none, .settings e⟩
    | .ok settings =>
      match packageInfo tree options with
      | .error t => .error t
      | .ok info =>
        match dependencyOf options settings info with
        | .error t => .error t
        | .ok dependency =>
          match Addition.addText settings.indentStyle? before dependency with
          | .error e => .error ⟨some ("Failed to edit " ++ options.manifest), .addition e⟩
          | .ok outcome =>
            let written := outcome.changed && !options.dryRun
            let report : Report :=
              { dependency, manifest := options.manifest, before, outcome, written
                dryRun := options.dryRun, diff := options.diff }
            if written then
              match tree.writeText options.manifest outcome.text with
              | .ok tree => .ok (report, tree)
              | .error cause =>
                .error ⟨some ("Failed to write manifest " ++ options.manifest),
                  .file options.manifest cause⟩
            else .ok (report, tree)

def infoOutput (colours : Bool) (format : Format) (info : Package.Info) : Output :=
  match format with
  | .human => { stdout := infoInWords colours info }
  | .json => { stdout := (infoJson info).print ++ "\n" }

def reportOutput (colours : Bool) (format : Format) (report : Report) : Output :=
  match format with
  | .human => report.inWords colours
  | .json => { stdout := report.toJson.print ++ "\n" }

def perform (tree : FileTree) (colours : Bool) (options : Options) :
    Except Trouble (Output × FileTree) :=
  if options.info then
    (packageInfo tree options).map fun info => (infoOutput colours options.format info, tree)
  else
    (addPackage tree options).map fun (report, tree) =>
      (reportOutput colours options.format report, tree)

def stopEnding (tree : FileTree) : Stop → Ending
  | .help => ⟨0, { stdout := helpText }, tree⟩
  | .version => ⟨0, { stdout := versionText }, tree⟩
  | .usage e =>
    ⟨2, { stderr := "error: " ++ e.message ++ "\n\n" ++ usageText ++
      "\nFor more information, try '--help'.\n" }, tree⟩

/-- A run with the given arguments. A run that fails changes nothing. -/
def run (tree : FileTree) (plainEnvironment : Bool) (arguments : List String) : Ending :=
  match Options.parse arguments with
  | .error stop => stopEnding tree stop
  | .ok options =>
    let colours := coloursOn plainEnvironment options
    match perform tree colours options with
    | .error t => ⟨t.exitCode, { stderr := t.line colours }, tree⟩
    | .ok (output, tree) => ⟨0, output, tree⟩

end PackageManifest.CommandLine
