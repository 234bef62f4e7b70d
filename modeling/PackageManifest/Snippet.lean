import PackageManifest.Dependency
import PackageManifest.Source.Literal
import PackageManifest.Source.Statement

/-!
# Generated expressions

New expressions are written as text and parsed, so they have the shape of parsed ones.
-/

namespace PackageManifest.Snippet

open Source

structure Invalid where
  text : List Char
  error : ParseError
  deriving DecidableEq, Repr

def expression (text : List Char) : Except Invalid Tree :=
  match parseExpressionText text with
  | .ok tree => .ok tree
  | .error e => .error ⟨text, e⟩

def literal (value : String) : List Char := Literal.encode value.toList

def memberCallText (name : String) (arguments : List (String × String)) : List Char :=
  let argument (a : String × String) : List Char := a.1.toList ++ [':', ' '] ++ literal a.2
  '.' :: name.toList ++ '(' :: [',', ' '].intercalate (arguments.map argument) ++ [')']

def packageText (d : Dependency) : List Char :=
  memberCallText "package"
    [("name", d.identifier), ("url", d.url), (d.requirement.label, d.requirement.value)]

def productText (product package : String) : List Char :=
  memberCallText "product" [("name", product), ("package", package)]

def packageReference (d : Dependency) : Except Invalid Tree := expression (packageText d)

def productReference (product package : String) : Except Invalid Tree :=
  expression (productText product package)

def emptyArray : Except Invalid Tree := expression ['[', ']']

end PackageManifest.Snippet
