import PackageManifest.Source.Cursor

/-!
# Why a text does not parse

A cause, with the bytes it concerns and the line and column where they start.
-/

namespace PackageManifest.Source

inductive Cause where
  | lexical (cause : FaultCause)
  | unclosed (opener : List Char)
  | mismatched (closer opener : List Char)
  | unopened (closer : List Char)
  | notExpression (input : List Char)
  | tooDeep (limit : Nat)
  deriving DecidableEq, Repr

namespace Cause

def message : Cause → String
  | lexical cause => cause.message
  | unclosed opener => "Unclosed delimiter '" ++ String.ofList opener ++ "'"
  | mismatched closer opener =>
    "Mismatched delimiter '" ++ String.ofList closer ++ "' closing '" ++ String.ofList opener ++ "'"
  | unopened closer => "Unexpected closing delimiter '" ++ String.ofList closer ++ "'"
  | notExpression input => "'" ++ String.ofList input ++ "' is not a single expression"
  | tooDeep limit => "Expression nested deeper than " ++ limit.repr ++ " levels"

end Cause

/-- Lines and columns count from one; a column is a character and only a line feed ends a line. -/
structure ParseError where
  cause : Cause
  span : Span
  line : Nat
  column : Nat
  deriving DecidableEq, Repr

namespace ParseError

/-- The error that concerns `input` between its tails `ahead` and `after`. -/
def between (cause : Cause) (input ahead after : List Char) : ParseError :=
  let before := input.take (input.length - ahead.length)
  ⟨cause, spanBetween input ahead after, Text.lineOf before, Text.columnOf before⟩

/-- The error that concerns the first of the tokens `ahead`, which end `input`. -/
def atToken (cause : Cause) (input : List Char) (ahead : List Token) : ParseError :=
  between cause input (textOf ahead) (textOf ahead.tail)

def ofFault (input : List Char) (fault : Fault) : ParseError :=
  between (.lexical fault.cause) input fault.ahead fault.after

def message (e : ParseError) : String := e.cause.message

def offset (e : ParseError) : Nat := e.span.start

def length (e : ParseError) : Nat := e.span.stop - e.span.start

def display (e : ParseError) : String :=
  e.message ++ " at line " ++ e.line.repr ++ ", column " ++ e.column.repr

end ParseError

end PackageManifest.Source
