/-!
# Options of the command line

An option is written `--name` or `-n`. Its value follows as the next argument, or behind an equals
sign; behind a single letter the equals sign may be left out. Options without value may share one
dash. Everything behind `--` is a package, of which there is exactly one.
-/

namespace PackageManifest.CommandLine

inductive Flag where
  | manifest
  | fromVersion
  | branch
  | product
  | name
  | packageDump
  | knownVersion
  | info
  | dryRun
  | diff
  | format
  | config
  | verbose
  | noColor
  | help
  | version
  deriving DecidableEq, Repr

namespace Flag

def all : List Flag :=
  [manifest, fromVersion, branch, product, name, packageDump, knownVersion, info, dryRun, diff,
    format, config, verbose, noColor, help, version]

def long : Flag → String
  | manifest => "manifest"
  | fromVersion => "from"
  | branch => "branch"
  | product => "product"
  | name => "name"
  | packageDump => "package-dump"
  | knownVersion => "known-version"
  | info => "info"
  | dryRun => "dry-run"
  | diff => "diff"
  | format => "format"
  | config => "config"
  | verbose => "verbose"
  | noColor => "no-color"
  | help => "help"
  | version => "version"

def short? : Flag → Option Char
  | product => some 'p'
  | config => some 'c'
  | verbose => some 'v'
  | help => some 'h'
  | version => some 'V'
  | _ => none

def placeholder? : Flag → Option String
  | manifest => some "MANIFEST"
  | fromVersion => some "VERSION"
  | branch => some "NAME"
  | product => some "PRODUCT"
  | name => some "ID"
  | packageDump => some "FILE"
  | knownVersion => some "V"
  | format => some "FORMAT"
  | config => some "CONFIG"
  | _ => none

def takesValue (f : Flag) : Bool := f.placeholder?.isSome

def mayRepeat : Flag → Bool
  | product | knownVersion | verbose => true
  | _ => false

/-- Whether the value is the path of a file, which is not empty. -/
def takesPath : Flag → Bool
  | manifest | packageDump | config => true
  | _ => false

def description : Flag → String
  | manifest => "Manifest to edit [default: Package.swift]"
  | fromVersion => "Version to depend on (defaults to the latest known version)"
  | branch => "Branch to track when no version is known"
  | product => "Product(s) to integrate into the first target"
  | name => "Identifier for the package in the manifest"
  | packageDump => "Output of `swift package dump-package` for the package"
  | knownVersion => "Released version of the package (repeatable)"
  | info => "Print what is known about the package and exit"
  | dryRun => "Print the edited manifest instead of writing it"
  | diff => "Print a unified diff of the change"
  | format => "Output format [default: human] [possible values: human, json]"
  | config => "Path to configuration file (.spm-add.toml)"
  | verbose => "Verbose output (can be used multiple times for increased verbosity)"
  | noColor => "Disable colored output"
  | help => "Print help"
  | version => "Print version"

def usage (f : Flag) : String :=
  "--" ++ f.long ++ (f.placeholder?.elim "" fun value => " <" ++ value ++ ">")

def ofLong? (name : String) : Option Flag := all.find? fun f => f.long == name

def ofShort? (letter : Char) : Option Flag := all.find? fun f => f.short? == some letter

end Flag

inductive Format where
  | human
  | json
  deriving DecidableEq, Repr

def Format.ofName? (name : String) : Option Format :=
  if name = "human" then some .human else if name = "json" then some .json else none

inductive UsageError where
  | unexpected (argument : String)
  | repeated (flag : Flag)
  | missingValue (flag : Flag)
  | unneededValue (flag : Flag) (value : String)
  | invalidFormat (value : String)
  | missingPackage
  deriving DecidableEq, Repr

inductive Stop where
  | usage (error : UsageError)
  | help
  | version
  deriving DecidableEq, Repr

structure Arguments where
  options : List (Flag × String) := []
  package : Option String := none
  deriving DecidableEq, Repr

namespace Arguments

def values (a : Arguments) (f : Flag) : List String :=
  (a.options.filter fun o => o.1 == f).map Prod.snd

def value? (a : Arguments) (f : Flag) : Option String := (a.values f).head?

def has (a : Arguments) (f : Flag) : Bool := !(a.values f).isEmpty

/-- Takes one more option; without a value it is empty. -/
def put (a : Arguments) (f : Flag) (value : String) : Except Stop Arguments :=
  match f with
  | .help => .error .help
  | .version => .error .version
  | _ =>
    if a.has f && !f.mayRepeat then .error (.usage (.repeated f))
    else if f.takesPath && value = "" then .error (.usage (.missingValue f))
    else if f = .format && (Format.ofName? value).isNone then
      .error (.usage (.invalidFormat value))
    else .ok { a with options := a.options ++ [(f, value)] }

def putPackage (a : Arguments) (package : String) : Except Stop Arguments :=
  match a.package with
  | some _ => .error (.usage (.unexpected package))
  | none => .ok { a with package := some package }

/-- Takes arguments that are no options, whatever they look like. -/
def putPackages (a : Arguments) : List String → Except Stop Arguments
  | [] => .ok a
  | package :: more =>
    match a.putPackage package with
    | .error stop => .error stop
    | .ok a => a.putPackages more

/-- Takes the options that share a dash; with the option, if any, whose value is still to come. -/
def putLetters (a : Arguments) : List Char → Except Stop (Arguments × Option Flag)
  | [] => .ok (a, none)
  | letter :: rest =>
    match Flag.ofShort? letter with
    | none => .error (.usage (.unexpected (String.ofList ['-', letter])))
    | some f =>
      if f.takesValue then
        match rest with
        | [] => .ok (a, some f)
        | '=' :: value => (a.put f (String.ofList value)).map fun a => (a, none)
        | value => (a.put f (String.ofList value)).map fun a => (a, none)
      else
        match a.put f "" with
        | .error stop => .error stop
        | .ok a => a.putLetters rest

/-- Takes an option by its name and the value behind its equals sign, if there is one; with the
option, if any, whose value is still to come. -/
def putLong (a : Arguments) (name : String) (value : Option String) :
    Except Stop (Arguments × Option Flag) :=
  match Flag.ofLong? name with
  | none => .error (.usage (.unexpected ("--" ++ name)))
  | some f =>
    match f.takesValue, value with
    | true, none => .ok (a, some f)
    | true, some value => (a.put f value).map fun a => (a, none)
    | false, none => (a.put f "").map fun a => (a, none)
    | false, some value => .error (.usage (.unneededValue f value))

end Arguments

inductive Shape where
  | separator
  | long (name : String) (value : Option String)
  | letters (letters : List Char)
  | plain
  deriving DecidableEq, Repr

/-- One dash alone is not an option. -/
def shapeOf (argument : String) : Shape :=
  match argument.toList with
  | ['-', '-'] => .separator
  | '-' :: '-' :: body =>
    .long (String.ofList (body.takeWhile (· != '=')))
      ((body.dropWhile (· != '=')).tail?.map String.ofList)
  | '-' :: c :: cs => .letters (c :: cs)
  | _ => .plain

/-- Reads arguments from left to right and stops at the first thing that is wrong. `awaiting` is the
option whose value comes next. -/
def readFrom (a : Arguments) : Option Flag → List String → Except Stop Arguments
  | none, [] => .ok a
  | some f, [] => .error (.usage (.missingValue f))
  | some f, argument :: rest =>
    match shapeOf argument with
    | .plain =>
      match a.put f argument with
      | .error stop => .error stop
      | .ok a => readFrom a none rest
    | _ => .error (.usage (.missingValue f))
  | none, argument :: rest =>
    match shapeOf argument with
    | .separator => a.putPackages rest
    | .plain =>
      match a.putPackage argument with
      | .error stop => .error stop
      | .ok a => readFrom a none rest
    | .long name value =>
      match a.putLong name value with
      | .error stop => .error stop
      | .ok (a, awaiting) => readFrom a awaiting rest
    | .letters letters =>
      match a.putLetters letters with
      | .error stop => .error stop
      | .ok (a, awaiting) => readFrom a awaiting rest

structure Options where
  package : String
  manifest : String
  version : Option String
  branch : Option String
  products : List String
  name : Option String
  packageDump : Option String
  knownVersions : List String
  info : Bool
  dryRun : Bool
  diff : Bool
  format : Format
  config : Option String
  noColor : Bool
  deriving DecidableEq, Repr

def standardManifest : String := "Package.swift"

def Options.ofArguments (a : Arguments) (package : String) : Options :=
  { package
    manifest := (a.value? .manifest).getD standardManifest
    version := a.value? .fromVersion
    branch := a.value? .branch
    products := a.values .product
    name := a.value? .name
    packageDump := a.value? .packageDump
    knownVersions := a.values .knownVersion
    info := a.has .info
    dryRun := a.has .dryRun
    diff := a.has .diff
    format := ((a.value? .format).bind Format.ofName?).getD .human
    config := a.value? .config
    noColor := a.has .noColor }

def Options.parse (arguments : List String) : Except Stop Options :=
  match readFrom {} none arguments with
  | .error stop => .error stop
  | .ok a =>
    match a.package with
    | none => .error (.usage .missingPackage)
    | some package => .ok (.ofArguments a package)

def programName : String := "spm-add"

def versionText : String := programName ++ " 0.1.0\n"

def usageText : String := "Usage: " ++ programName ++ " [OPTIONS] <PACKAGE>\n"

def helpLine (f : Flag) : String :=
  "  " ++ (f.short?.elim "    " fun letter => String.ofList ['-', letter, ',', ' ']) ++ f.usage ++
    "\n          " ++ f.description ++ "\n"

def helpText : String :=
  "Add a Swift package dependency to Package.swift\n\n" ++ usageText ++
    "\nArguments:\n  <PACKAGE>\n" ++
    "          Package to add: `owner/repo` on GitHub or a repository URL\n" ++
    "\nOptions:\n" ++ String.join (Flag.all.map helpLine)

def UsageError.message : UsageError → String
  | unexpected argument => "unexpected argument '" ++ argument ++ "' found"
  | repeated flag => "the argument '" ++ flag.usage ++ "' cannot be used multiple times"
  | missingValue flag => "a value is required for '" ++ flag.usage ++ "' but none was supplied"
  | unneededValue flag value =>
    "unexpected value '" ++ value ++ "' for '" ++ flag.usage ++ "' found; no more were expected"
  | invalidFormat value =>
    "invalid value '" ++ value ++ "' for '--format <FORMAT>'\n  [possible values: human, json]"
  | missingPackage => "the following required arguments were not provided:\n  <PACKAGE>"

end PackageManifest.CommandLine
