import PackageManifest.Dependency
import PackageManifest.Version

/-!
# What is known of a package

Its name, location, release tags and products, and the choice of products and of a requirement for a
dependency on it.
-/

namespace PackageManifest.Package

inductive ProductKind where
  | library
  | executable
  | plugin
  | other (name : String)
  deriving DecidableEq, Repr

namespace ProductKind

def ofName (name : String) : ProductKind :=
  if name = "library" then library
  else if name = "executable" then executable
  else if name = "plugin" then plugin
  else other name

def name : ProductKind → String
  | library => "library"
  | executable => "executable"
  | plugin => "plugin"
  | other name => name

end ProductKind

structure Product where
  name : String
  kind : ProductKind
  deriving DecidableEq, Repr

structure Info where
  name : String
  url : String
  /-- Release tags, as they are listed. -/
  versions : List String
  products : List Product
  deriving DecidableEq, Repr

namespace Info

def ofUrl (url : String) (versions : List String) : Info :=
  ⟨String.ofList (Repository.nameOf url.toList), url, versions, []⟩

def productNames (info : Info) : List String := info.products.map Product.name

/-- Of two tags with their versions the later one, unless the earlier has a greater version. -/
def laterMax (a b : Version × String) : Version × String :=
  if Version.compare a.1 b.1 = .gt then a else b

/-- The tag with the greatest version; of equal ones the last. -/
def greatest? : List (Version × String) → Option String
  | [] => none
  | first :: rest => some (rest.foldl laterMax first).2

def parsedTags (tags : List String) : List (Version × String) :=
  tags.filterMap fun tag => (Version.ofTag? tag).map fun version => (version, tag)

/-- The highest release, else the highest pre-release, else the last tag. -/
def latest? (info : Info) : Option String :=
  let parsed := parsedTags info.versions
  (greatest? (parsed.filter fun p => p.1.isStable)).or
    ((greatest? parsed).or info.versions.getLast?)

/-- Whether a tag may stand before another in a listing from new to old: no tag that names a greater
version follows, and tags that name none come last. -/
def notOlder (a b : String) : Bool :=
  match Version.ofTag? a, Version.ofTag? b with
  | some v, some w => Version.compare v w != .lt
  | none, some _ => false
  | _, none => true

/-- The tags from new to old; of equal ones the last listed comes first. -/
def newestFirst (info : Info) : List String := info.versions.reverse.mergeSort notOlder

/-- Whether a tag is listed, or one that names the same version. -/
def hasVersion (info : Info) (version : String) : Bool :=
  let wanted := Version.ofTag? version
  info.versions.any fun tag => tag == version || (wanted.isSome && Version.ofTag? tag == wanted)

end Info

inductive SelectionError where
  /-- No product is asked for, and it is not clear which one is meant. -/
  | multipleProducts (package : String) (products : List String)
  | invalidProduct (product package : String) (products : List String)
  | invalidVersion (version package : String) (versions : List String)
  deriving DecidableEq, Repr

def sameName (a b : String) : Bool := a.toList.map Char.toLower == b.toList.map Char.toLower

def selectProduct (info : Info) (wanted : String) : Except SelectionError String :=
  match info.products.find? fun product => sameName product.name wanted with
  | some product => .ok product.name
  | none => .error (.invalidProduct wanted info.name info.productNames)

def selectEach (info : Info) : List String → Except SelectionError (List String)
  | [] => .ok []
  | wanted :: more =>
    match selectProduct info wanted with
    | .error e => .error e
    | .ok name =>
      match selectEach info more with
      | .error e => .error e
      | .ok names => .ok (name :: names)

/-- The products that are asked for; if none is, the only one that the package has. -/
def selectProducts (info : Info) (requested : List String) : Except SelectionError (List String) :=
  if requested.isEmpty then
    match info.products with
    | [only] => .ok [only.name]
    | _ => .error (.multipleProducts info.name info.productNames)
  else selectEach info requested

/-- The version that is asked for, else the latest one, else the branch. -/
def selectRequirement (info : Info) (version : Option String) (branch : String) :
    Except SelectionError Requirement :=
  match version with
  | some version =>
    if info.versions.isEmpty || info.hasVersion version then .ok (.version version)
    else .error (.invalidVersion version info.name info.versions)
  | none =>
    match info.latest? with
    | some latest => .ok (.version latest)
    | none => .ok (.branch branch)

end PackageManifest.Package
