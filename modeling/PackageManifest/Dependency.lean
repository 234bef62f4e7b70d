import PackageManifest.Repository

/-!
# Dependencies

A package to depend on: what it is called, where it comes from, which state of it is asked for and
which of its products are used.
-/

namespace PackageManifest

inductive Requirement where
  | version (value : String)
  | branch (value : String)
  deriving DecidableEq, Repr, Inhabited

namespace Requirement

def label : Requirement → String
  | version _ => "from"
  | branch _ => "branch"

def value : Requirement → String
  | version value => value
  | branch value => value

def display : Requirement → String
  | version value => value
  | branch value => "branch: " ++ value

end Requirement

structure Dependency where
  identifier : String
  url : String
  requirement : Requirement
  products : List String := []
  deriving DecidableEq, Repr, Inhabited

namespace Dependency

/-- The dependency on `owner/name` or on a location, called after the last part of the location. -/
def ofPackage (package : String) (requirement : Requirement) : Dependency :=
  let location := Repository.locationOf package.toList
  ⟨String.ofList (Repository.nameOf location), String.ofList location, requirement, []⟩

/-- Adds the products that are not there yet, in the order in which they are first seen. -/
def withProducts (d : Dependency) (products : List String) : Dependency :=
  { d with
    products := products.foldl
      (fun seen product => if seen.contains product then seen else seen ++ [product]) d.products }

end Dependency

end PackageManifest
