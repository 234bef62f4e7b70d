import PackageManifest.Source.Kind
import PackageManifest.Text.Basic

/-!
# Tokens and lexical faults

A token is a kind and the text it stands for. A fault names what is wrong with a piece of the
input and keeps the input from that piece on, which locates it.
-/

namespace PackageManifest.Source

structure Token where
  kind : TokenKind
  text : List Char
  deriving DecidableEq, Repr, Inhabited

namespace Token

def isTrivia (t : Token) : Bool := t.kind.isTrivia

end Token

def textOf (ts : List Token) : List Char := ts.flatMap Token.text

@[simp] theorem textOf_nil : textOf [] = [] := rfl

@[simp] theorem textOf_cons (t : Token) (ts : List Token) :
    textOf (t :: ts) = t.text ++ textOf ts := rfl

@[simp] theorem textOf_append (ts us : List Token) :
    textOf (ts ++ us) = textOf ts ++ textOf us := by
  simp [textOf]

/-- A range of bytes, `start` included and `stop` excluded. -/
structure Span where
  start : Nat
  stop : Nat
  deriving DecidableEq, Repr, Inhabited

inductive FaultCause where
  | openComment
  | openString
  | openInterpolation
  | openName
  | strayCharacter (c : Char)
  deriving DecidableEq, Repr

def FaultCause.message : FaultCause → String
  | openComment => "Unterminated block comment"
  | openString => "Unterminated string literal"
  | openInterpolation => "Unterminated string interpolation"
  | openName => "Unterminated escaped identifier"
  | strayCharacter c => "Unexpected character '" ++ String.ofList (Text.shown c) ++ "'"

/-- Something wrong between two places of an input, each given by the input from there on. -/
structure Fault where
  cause : FaultCause
  ahead : List Char
  after : List Char
  deriving DecidableEq, Repr

/-- The bytes of `input` between its tails `ahead` and `after`. -/
def spanBetween (input ahead after : List Char) : Span :=
  ⟨Text.size input - Text.size ahead, Text.size input - Text.size after⟩

def Fault.span (fault : Fault) (input : List Char) : Span :=
  spanBetween input fault.ahead fault.after

end PackageManifest.Source
