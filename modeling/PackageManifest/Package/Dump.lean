import PackageManifest.Json.Reader
import PackageManifest.Package.Info

/-!
# The dump of a package

A package describes itself in JSON: its name and its products, each with an object whose first field
names its kind. Fields that are not used only have to be JSON. Instead of an object, an array of the
fields in order will do.
-/

namespace PackageManifest.Package

structure Dump where
  name : String
  products : List Product
  deriving DecidableEq, Repr

namespace Dump

def depthLimit : Nat := 127

def fieldsAreClear (known : List String) (fields : List (Option String × Json)) : Bool :=
  fields.all (fun f => f.1.isSome) &&
    known.all fun name => (fields.filter fun f => f.1 == some name).length ≤ 1

def field? (fields : List (Option String × Json)) (name : String) : Option Json :=
  (fields.find? fun f => f.1 == some name).map Prod.snd

def text? : Json → Option String
  | .string text => text
  | _ => none

def kind? (level : Nat) (value : Json) : Option ProductKind :=
  if value.isPlain && value.depth + level ≤ depthLimit then
    match value with
    | .object ((some name, _) :: _) => some (ProductKind.ofName name)
    | _ => none
  else none

def product? : Json → Option Product
  | .object fields =>
    if fieldsAreClear ["name", "type"] fields then
      match (field? fields "name").bind text?, (field? fields "type").bind (kind? 3) with
      | some name, some kind => some ⟨name, kind⟩
      | _, _ => none
    else none
  | .array [name, kind] =>
    match text? name, kind? 3 kind with
    | some name, some kind => some ⟨name, kind⟩
    | _, _ => none
  | _ => none

def allProducts? : List Json → Option (List Product)
  | [] => some []
  | item :: items =>
    match product? item, allProducts? items with
    | some product, some products => some (product :: products)
    | _, _ => none

def products? : Json → Option (List Product)
  | .array items => allProducts? items
  | _ => none

def ofJson? : Json → Option Dump
  | .object fields =>
    if fieldsAreClear ["name", "products"] fields then
      match (field? fields "name").bind text? with
      | none => none
      | some name =>
        match field? fields "products" with
        | none => some ⟨name, []⟩
        | some value => (products? value).map fun products => ⟨name, products⟩
    else none
  | .array [name] => (text? name).map fun name => ⟨name, []⟩
  | .array [name, value] =>
    match text? name, products? value with
    | some name, some products => some ⟨name, products⟩
    | _, _ => none
  | _ => none

def parse? (text : String) : Option Dump := (Json.parse? text.toList).bind ofJson?

end Dump

def Info.ofDump (url : String) (dump : Dump) (versions : List String) : Info :=
  ⟨dump.name, url, versions, dump.products⟩

end PackageManifest.Package
