import PackageManifest.Addition
import PackageManifest.CommandLine.Paint
import PackageManifest.Diff.Unified
import PackageManifest.Failure
import PackageManifest.Json.Printer

/-!
# Reports

What is said about a package, about an addition and about a failure, in words or as JSON.
-/

namespace PackageManifest.CommandLine

structure Output where
  stdout : String := ""
  stderr : String := ""
  deriving DecidableEq, Repr

/-- An addition that was made, or that would have been. -/
structure Report where
  dependency : Dependency
  manifest : String
  before : String
  outcome : Addition.TextOutcome
  written : Bool
  dryRun : Bool
  diff : Bool

def diagnosticLine (colours : Bool) (d : Diagnostic) : String :=
  let style := match d.severity with
    | .warning => Style.boldYellow
    | .info => Style.boldBlue
  paint colours style d.severity.name ++ "[" ++ paint colours .dimmed d.code ++ "]: " ++
    d.message ++ "\n"

def diffStyle? (line : String) : Option Style :=
  if line.startsWith "+++" || line.startsWith "---" then some .bold
  else if line.startsWith "@@" then some .cyan
  else if line.startsWith "+" then some .green
  else if line.startsWith "-" then some .red
  else none

def paintDiffLine (line : String) : String :=
  match diffStyle? line with
  | some style => paint true style line
  | none => line

def lineFeedPieces (line : List Char) : List Char → List String
  | [] => if line.isEmpty then [] else [String.ofList line.reverse]
  | c :: cs =>
    if c = '\n' then String.ofList (c :: line).reverse :: lineFeedPieces [] cs
    else lineFeedPieces (c :: line) cs

def paintDiff (colours : Bool) (diff : String) : String :=
  if colours then String.join ((lineFeedPieces [] diff.toList).map paintDiffLine) else diff

namespace Report

def diffText (r : Report) : String :=
  Diff.unified ("a/" ++ r.manifest) ("b/" ++ r.manifest) r.before r.outcome.text

def summary (colours : Bool) (r : Report) : String :=
  let identifier := paint colours .bold r.dependency.identifier
  if r.outcome.changed then
    paint colours .boldGreen "Added" ++ " " ++ identifier ++ " (" ++
      r.dependency.requirement.display ++ ") from " ++ r.dependency.url ++ "\n"
  else identifier ++ " is already up to date in " ++ r.manifest ++ "\n"

/-- The report in words: findings, then the diff or the new manifest if asked for, then one line. -/
def inWords (colours : Bool) (r : Report) : Output where
  stdout :=
    (if r.diff then paintDiff colours r.diffText else if r.dryRun then r.outcome.text else "") ++
      r.summary colours
  stderr := String.join (r.outcome.diagnostics.map (diagnosticLine colours))

def diagnosticJson (d : Diagnostic) : Json :=
  .ofFields [("kind", .ofString d.code), ("severity", .ofString d.severity.name),
    ("message", .ofString d.message)]

def toJson (r : Report) : Json :=
  .ofFields ([("package", .ofString r.dependency.identifier), ("url", .ofString r.dependency.url),
    ("constraint", .ofString r.dependency.requirement.display),
    ("products", .ofStrings r.dependency.products), ("manifest", .ofString r.manifest),
    ("changed", .bool r.outcome.changed), ("written", .bool r.written),
    ("diagnostics", .array (r.outcome.diagnostics.map diagnosticJson))] ++
    if r.dryRun then [("contents", .ofString r.outcome.text)] else [])

end Report

def infoInWords (colours : Bool) (info : Package.Info) : String :=
  let title (text : String) := paint colours .brightBlack text ++ " "
  "\n" ++ title "    Name:" ++ paint colours .brightBlue info.name ++ "\n" ++
    title "     URL:" ++ paint colours .white info.url ++ "\n" ++
    title "Products:" ++ ", ".intercalate info.productNames ++ "\n" ++
    title "Versions:" ++ ", ".intercalate info.newestFirst ++ "\n\n"

def productKindJson : Package.ProductKind → Json
  | .other name => .ofFields [("other", .ofString name)]
  | kind => .ofString kind.name

def infoJson (info : Package.Info) : Json :=
  .ofFields [("name", .ofString info.name), ("url", .ofString info.url),
    ("versions", .ofStrings info.versions),
    ("products", .array (info.products.map fun product =>
      .ofFields [("name", .ofString product.name), ("kind", productKindJson product.kind)]))]

structure Trouble where
  context : Option String
  failure : Failure
  deriving DecidableEq, Repr

namespace Trouble

def cause? : Failure → Option String
  | .addition (.unparsable e) => some e.display
  | .settings (.unreadable _ cause) => some cause.message
  | .file _ cause => some cause.message
  | _ => none

def chain (t : Trouble) : List String :=
  t.context.toList ++ t.failure.message :: (cause? t.failure).toList

def line (colours : Bool) (t : Trouble) : String :=
  paint colours .boldRed "error:" ++ " " ++ ": ".intercalate t.chain ++ "\n"

/-- 2 for a manifest that cannot be parsed, and 1 for everything else. -/
def exitCode (t : Trouble) : Nat :=
  match t.failure.kind with
  | .parse => 2
  | _ => 1

end Trouble

end PackageManifest.CommandLine
