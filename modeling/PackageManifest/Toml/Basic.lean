/-!
# TOML documents

A document is a table. While it is read, a table remembers what brought it about, which decides what
may be added to it later.
-/

namespace PackageManifest

/-- A value of a document. Numbers that are not whole and points in time are told apart from the
rest, but not from each other. -/
inductive Toml where
  | string (text : String)
  | integer (value : Int)
  | boolean (value : Bool)
  | other
  | array (items : List Toml)
  | table (entries : List (String × Toml))
  deriving Repr, Inhabited

namespace Toml

/-- What brought a table about: a longer header, its own header, or a dotted key. -/
inductive Origin where
  | implied
  | header
  | dotted
  deriving DecidableEq, Repr

inductive Node where
  | value (value : Toml)
  | table (origin : Origin) (entries : List (String × Node))
  | tables (items : List (List (String × Node)))
  deriving Repr, Inhabited

abbrev Entries := List (String × Node)

def find? (entries : Entries) (key : String) : Option Node :=
  (entries.find? fun e => e.1 == key).map Prod.snd

def put (entries : Entries) (key : String) (node : Node) : Entries :=
  entries.map fun e => if e.1 == key then (key, node) else e

/-- Changes the table at the end of a path by `change`, making the tables on the way that are
missing. A dotted key does not pass through a table that has a header. -/
def descend (dotted : Bool) (change : Entries → Option Entries) (entries : Entries) :
    List String → Option Entries
  | [] => change entries
  | key :: path =>
    match find? entries key with
    | none =>
      (descend dotted change [] path).map fun inner =>
        entries ++ [(key, .table (if dotted then .dotted else .implied) inner)]
    | some (.value _) => none
    | some (.table origin inner) =>
      if dotted && origin == .header then none
      else (descend dotted change inner path).map fun inner => put entries key (.table origin inner)
    | some (.tables items) =>
      if dotted then none
      else
        match items.reverse with
        | [] => none
        | last :: others =>
          (descend dotted change last path).map fun last =>
            put entries key (.tables (others.reverse ++ [last]))

def insertValue (key : String) (value : Toml) (entries : Entries) : Option Entries :=
  match find? entries key with
  | none => some (entries ++ [(key, .value value)])
  | some _ => none

def openTable (key : String) (entries : Entries) : Option Entries :=
  match find? entries key with
  | none => some (entries ++ [(key, .table .header [])])
  | some (.table .implied inner) => some (put entries key (.table .header inner))
  | some _ => none

def openItem (key : String) (entries : Entries) : Option Entries :=
  match find? entries key with
  | none => some (entries ++ [(key, .tables [[]])])
  | some (.tables items) => some (put entries key (.tables (items ++ [[]])))
  | some _ => none

/-- Adds a value under a dotted key, which is the path and the name behind it. -/
def insertAt (path : List String) (key : String) (value : Toml) (entries : Entries) :
    Option Entries :=
  descend true (insertValue key value) entries path

mutual

def Node.close : Node → Toml
  | .value value => value
  | .table _ entries => .table (closeEntries entries)
  | .tables items => .array (closeItems items)

def closeEntries : List (String × Node) → List (String × Toml)
  | [] => []
  | (key, node) :: entries => (key, node.close) :: closeEntries entries

def closeItems : List (List (String × Node)) → List Toml
  | [] => []
  | entries :: items => .table (closeEntries entries) :: closeItems items

end

end Toml

end PackageManifest
