/-!
# Findings

What adding a dependency has to say besides the new manifest. No finding stops the work by itself.
-/

namespace PackageManifest

inductive Severity where
  | info
  | warning
  deriving DecidableEq, Repr

def Severity.name : Severity → String
  | info => "info"
  | warning => "warning"

inductive Diagnostic where
  /-- No binding is a call of `Package`. -/
  | noRootPackage
  /-- An argument has another shape than expected. -/
  | structuralMismatch (what expected : String)
  /-- The package is declared already, as `identifier`. -/
  | duplicatePackage (url identifier : String)
  /-- There is no target that could use the products. -/
  | noTargets
  /-- None of the arguments behind which `label` could go is there. -/
  | missingAnchor (label : String) (candidates : List String)
  /-- The first target uses the product already. -/
  | alreadyWired (product package : String)
  deriving DecidableEq, Repr

namespace Diagnostic

def code : Diagnostic → String
  | noRootPackage => "no-root-package-found"
  | structuralMismatch _ _ => "structural-mismatch"
  | duplicatePackage _ _ => "duplicate-package"
  | noTargets => "no-targets-to-wire"
  | missingAnchor _ _ => "missing-anchor"
  | alreadyWired _ _ => "product-already-wired"

def severity : Diagnostic → Severity
  | noRootPackage | structuralMismatch _ _ | missingAnchor _ _ => .warning
  | duplicatePackage _ _ | noTargets | alreadyWired _ _ => .info

def ticked (name : String) : String := "`" ++ name ++ "`"

def message : Diagnostic → String
  | noRootPackage => "no top-level binding initialized with `Package(…)` was found"
  | structuralMismatch what expected => ticked what ++ " is not " ++ expected ++ "; left unchanged"
  | duplicatePackage url identifier => url ++ " is already declared as " ++ ticked identifier
  | noTargets => "the package declares no targets; products were not wired"
  | missingAnchor label candidates =>
    "cannot insert " ++ ticked label ++ ": none of " ++
      ", ".intercalate (candidates.map ticked) ++ " is present"
  | alreadyWired product package =>
    "the first target already depends on " ++ product ++ " from " ++ package

def display (d : Diagnostic) : String :=
  d.severity.name ++ "[" ++ d.code ++ "]: " ++ d.message

end Diagnostic

end PackageManifest
