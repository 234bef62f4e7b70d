import PackageManifest.Addition
import PackageManifest.Package.Info
import PackageManifest.Settings.Lookup

/-!
# Failures

Whatever stops the work, with the words for it.
-/

namespace PackageManifest

inductive Failure where
  | addition (cause : Addition.Failure)
  | settings (cause : Settings.LookupError)
  | file (path : String) (cause : FileError)
  | selection (cause : Package.SelectionError)
  /-- A dump that does not describe a package. -/
  | dump
  deriving DecidableEq, Repr

inductive FailureKind where
  | parse
  | config
  | io
  | resolution
  | internal
  deriving DecidableEq, Repr

namespace Failure

def kind : Failure → FailureKind
  | addition (.unparsable _) => .parse
  | addition _ => .internal
  | settings (.unreadable _ _) => .io
  | settings _ => .config
  | file _ _ => .io
  | selection _ => .resolution
  | dump => .resolution

def isRecoverable (f : Failure) : Bool :=
  match f.kind with
  | .parse | .config | .resolution => true
  | .io | .internal => false

def bullets (items : List String) : String :=
  "\n".intercalate (items.map fun item => "- " ++ item)

def fileMessage (path : String) (cause : FileError) : String :=
  "IO error for path '" ++ path ++ "': " ++ cause.message

def additionMessage : Addition.Failure → String
  | .unparsable e => "Parse error: " ++ e.display
  | .invalidSnippet s =>
    "Internal error: generated invalid syntax `" ++ String.ofList s.text ++ "`: " ++ s.error.display
  | .lostTrack what => "Internal error: lost track of " ++ what ++ " after an edit"

def settingsMessage : Settings.LookupError → String
  | .invalidStart cause => "Configuration error: Invalid path: " ++ cause.message
  | .missing path => "Configuration error: Config file not found: " ++ path
  | .unreadable path cause => fileMessage path cause
  | .malformed path => "Configuration error: Failed to load config from '" ++ path ++ "'"
  | .zeroWidth => "Configuration error: format.indent_width must be at least 1"

def selectionMessage : Package.SelectionError → String
  | .multipleProducts package products =>
    "The package " ++ package ++ " contains multiple products.\n" ++
      "Choose which one(s) to integrate into your target with the `-p` flag.\n\n" ++
      "Products in this package:\n" ++ bullets products ++
      "\n\nExample:\n\nspm-add <package> -p " ++ products.head?.getD "<product>"
  | .invalidProduct product package products =>
    "The product '" ++ product ++ "' is not provided by the package " ++ package ++
      ".\n\nValid products:\n" ++ bullets products
  | .invalidVersion version package versions =>
    "The version '" ++ version ++ "' is not provided by the package " ++ package ++
      ".\n\nValid versions:\n" ++ bullets versions

def message : Failure → String
  | addition cause => additionMessage cause
  | settings cause => settingsMessage cause
  | file path cause => fileMessage path cause
  | selection cause => selectionMessage cause
  | dump => "Invalid package dump"

end Failure

end PackageManifest
