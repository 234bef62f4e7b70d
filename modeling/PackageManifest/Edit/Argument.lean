import PackageManifest.Diagnostic
import PackageManifest.Edit.Basic
import PackageManifest.Edit.Elements
import PackageManifest.Layout
import PackageManifest.Source.View

/-!
# Editing the arguments of a call

A new argument goes behind the first of some labels that the call has; the value of an argument can
be replaced.
-/

namespace PackageManifest.Edit.Argument

open Source

/-- Whether the argument list spans several lines outside of its arguments. -/
def isMultiline (call : Tree) : Bool :=
  match call.argumentList? with
  | none => false
  | some list => containsNewline (directTrivia list.children)

def find? (children : List Tree) (label : List Char) : Option Nat :=
  children.findIdx? fun c => c.isNode .argument && c.hasLabel label

def isLast (children : List Tree) (i : Nat) : Bool :=
  !(children.drop (i + 1)).any (Tree.isNode .argument)

def argument (label : List Char) (value : Tree) (last : Bool) : Tree :=
  .node .argument (
    [.token ⟨(TokenKind.ofWord? label).getD .ident, label⟩, .token ⟨.colon, [':']⟩,
      .token ⟨.whitespace, [' ']⟩, value] ++ if last then [] else [commaToken])

def callLevel (layout : Layout) (root : Tree) (call : Site) : Nat :=
  if call.tree.tokens.isEmpty then 0 else layout.levelAfter (root.tokensBefore call.path)

/-- Inserts `label: value` behind the argument with the first of the candidate labels that is there.
The new argument starts a line, one level inside of the call's, if it has to or if the argument
before it ends in a line comment. -/
def insertAfterFirst (layout : Layout) (root : Tree) (call : Site) (candidates : List String)
    (label : String) (value : Tree) (ownLine : Bool) : Except Diagnostic Edit :=
  match call.argumentList? with
  | none => .error (.missingAnchor label candidates)
  | some list =>
    let children := list.tree.children
    match candidates.findSome? fun c => find? children c.toList with
    | none => .error (.missingAnchor label candidates)
    | some i =>
      let spaced := children.modify i withSeparator
      let leading :=
        if ownLine || trailingLineComment spaced i then
          layout.newLine (callLevel layout root call + 1)
        else oneSpace
      .ok ⟨list, .node .argumentList
        (insertAfter spaced i leading (argument label.toList value (isLast children i)))⟩

def replace? (call : Site) (label : String) (value : Tree) : Option Edit :=
  (call.argumentValue? label.toList).map fun old => ⟨old, value⟩

def position? (call : Tree) (label : List Char) : Option (Nat × Tree) :=
  (call.arguments.zipIdx.find? fun (a, _) => a.hasLabel label).map fun (a, i) => (i, a)

end PackageManifest.Edit.Argument
