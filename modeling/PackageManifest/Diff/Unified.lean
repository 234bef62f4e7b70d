import PackageManifest.Diff.Compact
import PackageManifest.Diff.Lines

/-!
# Unified diffs

A script in hunks: changes with up to three equal lines around them, each hunk under a header that
tells its place in both texts.
-/

namespace PackageManifest.Diff

def context : Nat := 3

def trimFirst : List Op → List Op
  | .equal old new len :: ops =>
    let drop := len - context
    .equal (old + drop) (new + drop) (len - drop) :: ops
  | ops => ops

def trimLast (ops : List Op) : List Op :=
  match ops.reverse with
  | .equal old new len :: others => (Op.equal old new (min len context) :: others).reverse
  | _ => ops

/-- Cuts a script where more equal lines follow each other than two hunks show. `group` is what is
read of a hunk, last step first. -/
def groupFrom (group : List Op) : List Op → List (List Op)
  | [] =>
    match group with
    | [] => []
    | [.equal _ _ _] => []
    | group => [group.reverse]
  | .equal old new len :: ops =>
    if 2 * context < len then
      let drop := len - context
      (Op.equal old new context :: group).reverse ::
        groupFrom [.equal (old + drop) (new + drop) context] ops
    else groupFrom (.equal old new len :: group) ops
  | op :: ops => groupFrom (op :: group) ops

def hunks (ops : List Op) : List (List Op) := groupFrom [] (trimLast (trimFirst ops))

/-- The place of some lines in a text: the number of the first and, unless it is one, how many there
are. An empty range is named by the line before it. -/
def showRange (start stop : Nat) : String :=
  let len := stop - start
  if len == 1 then (start + 1).repr
  else if len == 0 then start.repr ++ ",0"
  else (start + 1).repr ++ "," ++ len.repr

def hunkHeader (ops : List Op) : String :=
  match ops.head?, ops.getLast? with
  | some first, some last =>
    "@@ -" ++ showRange first.oldStart last.oldEnd ++ " +" ++
      showRange first.newStart last.newEnd ++ " @@\n"
  | _, _ => ""

def showLine (mark : Char) (line : List Char) : String :=
  String.ofList (mark :: line) ++ if endsLine line then "" else "\n\\ No newline at end of file\n"

def showLines (mark : Char) (lines : Array (List Char)) (start len : Nat) : String :=
  String.join ((lines.extract start (start + len)).toList.map (showLine mark))

def showOp (old new : Array (List Char)) : Op → String
  | .equal start _ len => showLines ' ' old start len
  | .delete start len _ => showLines '-' old start len
  | .insert _ start len => showLines '+' new start len
  | .replace start len newStart newLen =>
    showLines '-' old start len ++ showLines '+' new newStart newLen

/-- The unified diff of two texts, or nothing if they are equal. -/
def unified (oldName newName old new : String) : String :=
  let oldLines := (lines old).toArray
  let newLines := (lines new).toArray
  let shown := (hunks (script oldLines newLines)).map fun ops =>
    hunkHeader ops ++ String.join (ops.map (showOp oldLines newLines))
  if shown.isEmpty then ""
  else "--- " ++ oldName ++ "\n+++ " ++ newName ++ "\n" ++ String.join shown

end PackageManifest.Diff
