import PackageManifest.Source.Literal
import PackageManifest.Source.Tree

/-!
# What the nodes of a manifest say

Names, labels, values and elements, read off the children of a node. The functions on `Tree` answer
what a node says; those on `Site` also tell where the answer stands.
-/

namespace PackageManifest.Source

namespace Tree

def tokenOf? (t : Tree) (kind : TokenKind) : Option Token :=
  (t.children.filterMap token?).find? fun u => u.kind == kind

/-- The first child that is an expression: the value of a binding, argument or element, the callee
of a call, the base of a member access. -/
def expr? (t : Tree) : Option Tree := t.children.find? isExpr

def identName? (t : Tree) : Option (List Char) := (t.tokenOf? .ident).map Token.text

def memberName? (t : Tree) : Option (List Char) :=
  (((t.children.filterMap token?).dropWhile fun u => u.kind != .dot).find? fun u =>
    u.kind.isNameLike || u.kind == .numberLit).map Token.text

def calledName? (t : Tree) : Option (List Char) :=
  match t.expr? with
  | none => none
  | some callee =>
    if callee.isNode .identifierExpr then callee.identName?
    else if callee.isNode .memberAccessExpr then callee.memberName?
    else none

def argumentList? (t : Tree) : Option Tree := t.children.find? (isNode .argumentList)

def listArguments (t : Tree) : List Tree := t.children.filter (isNode .argument)

def arguments (t : Tree) : List Tree :=
  match t.argumentList? with
  | none => []
  | some list => list.listArguments

def hasColon (t : Tree) : Bool := (t.tokenOf? .colon).isSome

def hasComma (t : Tree) : Bool := (t.tokenOf? .comma).isSome

/-- The label of an argument: its first token, if a colon is among its children. -/
def label? (t : Tree) : Option (List Char) :=
  if t.hasColon then t.firstToken?.map Token.text else none

def hasLabel (label : List Char) (t : Tree) : Bool := t.label? == some label

def argumentValue? (t : Tree) (label : List Char) : Option Tree :=
  (t.arguments.find? (hasLabel label)).bind expr?

def elements (t : Tree) : List Tree := t.children.filter (isNode .arrayElement)

def elementExprs (t : Tree) : List Tree := t.elements.filterMap expr?

def stringValue? (t : Tree) : Option (List Char) :=
  (t.tokenOf? .stringLit).bind fun u => Literal.decode? u.text

def stringArgument? (t : Tree) (label : List Char) : Option (List Char) :=
  match t.argumentValue? label with
  | none => none
  | some value => if value.isNode .stringLiteralExpr then value.stringValue? else none

def isMemberCall (name : List Char) (t : Tree) : Bool :=
  t.isNode .callExpr &&
    match t.expr? with
    | none => false
    | some callee =>
      callee.isNode .memberAccessExpr && callee.expr?.isNone && callee.memberName? == some name

def isPackageCall (t : Tree) : Bool :=
  t.isNode .callExpr &&
    match t.expr? with
    | none => false
    | some callee =>
      callee.isNode .identifierExpr && callee.identName? == some ['P', 'a', 'c', 'k', 'a', 'g', 'e']

def isPackageBinding (t : Tree) : Bool :=
  t.isNode .variableDecl && (t.expr?.map isPackageCall).getD false

def bindings (t : Tree) : List Tree := t.children.filter (isNode .variableDecl)

def packageBinding? (t : Tree) : Option Tree := t.children.find? isPackageBinding

end Tree

namespace Site

def expr? (s : Site) : Option Site := s.child? Tree.isExpr

def argumentList? (s : Site) : Option Site := s.child? (Tree.isNode .argumentList)

def arguments (s : Site) : List Site :=
  match s.argumentList? with
  | none => []
  | some list => list.children.filter fun c => c.tree.isNode .argument

def argument? (s : Site) (label : List Char) : Option Site :=
  s.arguments.find? fun a => a.tree.hasLabel label

def argumentValue? (s : Site) (label : List Char) : Option Site :=
  (s.argument? label).bind expr?

def elements (s : Site) : List Site := s.children.filter fun c => c.tree.isNode .arrayElement

def packageCall? (s : Site) : Option Site :=
  (s.child? Tree.isPackageBinding).bind expr?

end Site

end PackageManifest.Source
