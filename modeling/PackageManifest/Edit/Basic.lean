import PackageManifest.Source.Tree

/-!
# Edits

An edit replaces one node by another of the same kind and leaves the rest of the tree as it is.
-/

namespace PackageManifest

open Source

structure Edit where
  site : Site
  replacement : Tree
  deriving DecidableEq, Repr

namespace Edit

def isNoop (e : Edit) : Bool := e.site.tree == e.replacement

/-- The edited tree. A node is not replaced by one of another kind. -/
def applyTo? (e : Edit) (root : Tree) : Option Tree :=
  if e.replacement.kind = e.site.tree.kind then some (root.set e.site.path e.replacement) else none

end Edit

end PackageManifest
