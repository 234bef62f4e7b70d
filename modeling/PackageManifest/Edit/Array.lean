import PackageManifest.Edit.Basic
import PackageManifest.Edit.Elements
import PackageManifest.Layout
import PackageManifest.Source.View

/-!
# Editing an array literal

New elements go behind the last one on lines of their own, or the whole array is written anew with
one element a line.
-/

namespace PackageManifest.Edit.Array

open Source

def lastIdx? (p : Tree → Bool) (children : List Tree) : Option Nat :=
  (children.zipIdx.reverse.find? fun (c, _) => p c).map Prod.snd

def lastElement? (children : List Tree) : Option Nat :=
  lastIdx? (Tree.isNode .arrayElement) children

def separated (children : List Tree) : List Tree :=
  match lastElement? children with
  | none => children
  | some i => children.modify i withSeparator

def separate (site : Site) : Edit := ⟨site, .node .arrayExpr (separated site.tree.children)⟩

/-- Where a new element goes: behind the last element, or behind the last comment of an array
without elements, or else behind the bracket. -/
def anchor (children : List Tree) : Nat :=
  match lastElement? children with
  | some i => i
  | none => (lastIdx? Tree.isComment children).getD 0

def append (layout : Layout) (site : Site) (expr : Tree) (level : Nat) : Edit :=
  let children := site.tree.children
  ⟨site, .node .arrayExpr (insertAfter (separated children) (anchor children)
    (layout.newLine level) (.node .arrayElement [expr]))⟩

def elementLines (lead : List Token) : List Tree → List Tree
  | [] => []
  | [expr] => leaves lead ++ [.node .arrayElement [expr]]
  | expr :: next :: more =>
    leaves lead ++ .node .arrayElement [expr, commaToken] :: elementLines lead (next :: more)

/-- Writes the array anew: the expressions one level inside of `level`, at which the bracket
closes. -/
def reflow (layout : Layout) (site : Site) (level : Nat) (exprs : List Tree) : Edit :=
  ⟨site, .node .arrayExpr (.token ⟨.lBracket, ['[']⟩ ::
    elementLines (layout.newLine (level + 1)) exprs ++
    leaves (layout.newLine level) ++ [.token ⟨.rBracket, [']']⟩])⟩

/-- No line break between the brackets outside of elements. -/
def isInline (array : Tree) : Bool := !containsNewline (directTrivia array.children)

/-- Whether writing the array anew would lose a comment. -/
def holdsComments (array : Tree) : Bool :=
  hasComments (directTrivia array.children) ||
    array.elements.any fun e => e.children.any Tree.isComment

def baseLevel (layout : Layout) (root : Tree) (site : Site) : Nat :=
  match site.child? (Tree.isToken .lBracket) with
  | none => 0
  | some bracket => layout.levelAfter (root.tokensBefore bracket.path)

/-- The level at which a new element lines up with the last one. -/
def elementLevel (layout : Layout) (root : Tree) (site : Site) : Nat :=
  match site.elements.getLast? with
  | none => baseLevel layout root site + 1
  | some last =>
    let before := root.tokensBefore last.path
    if !last.tree.tokens.isEmpty && startsLine before then layout.levelAfter before
    else baseLevel layout root site + 1

end PackageManifest.Edit.Array
