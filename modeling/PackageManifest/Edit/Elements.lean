import PackageManifest.Source.Trivia

/-!
# Elements of a list

The children of an array literal or of an argument list: delimiters, trivia and elements, each of
which ends with its comma if it has one.
-/

namespace PackageManifest.Edit

open Source

def commaToken : Tree := .token ⟨.comma, [',']⟩

def hasSeparator (element : Tree) : Bool :=
  match element.children.getLast? with
  | none => false
  | some last => last.isToken .comma

def withSeparator : Tree → Tree
  | .token t => .token t
  | .node kind children =>
    if hasSeparator (.node kind children) then .node kind children
    else .node kind (children ++ [commaToken])

/-- Trivia that stays on the line of what is before it. -/
def isInlineTrivia (t : Tree) : Bool :=
  match t with
  | .token u => u.isInlineTrivia
  | .node _ _ => false

/-- The trivia among the children themselves, not that inside of elements. -/
def directTrivia (children : List Tree) : List Token :=
  (children.filterMap Tree.token?).filter Token.isTrivia

def trailingLineComment (children : List Tree) (anchor : Nat) : Bool :=
  endsWithLineComment (directTrivia ((children.drop (anchor + 1)).takeWhile isInlineTrivia))

/-- The children with `leading` and `element` behind the one at `anchor`. If the element starts a
line, what trails the anchor on its line stays there. -/
def insertAfter (children : List Tree) (anchor : Nat) (leading : List Token) (element : Tree) :
    List Tree :=
  let head := children.take (anchor + 1)
  let tail := children.drop (anchor + 1)
  if containsNewline leading then
    head ++ tail.takeWhile isInlineTrivia ++ leaves leading ++
      element :: tail.dropWhile isInlineTrivia
  else head ++ leaves leading ++ element :: tail

end PackageManifest.Edit
