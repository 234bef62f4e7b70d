import PackageManifest.Source.Trivia
import PackageManifest.Text.Blank

/-!
# Indentation and line ends

What new lines of a manifest look like: the unit of indentation and the line break, both of which
are taken from the manifest unless they are given.
-/

namespace PackageManifest

/-- The unit of one level; `width` is also what a tab counts for. -/
structure IndentStyle where
  width : Nat
  useTabs : Bool
  deriving DecidableEq, Repr, Inhabited

namespace IndentStyle

/-- A level of spaces is at least one column wide. -/
def spaces (width : Nat) : IndentStyle := ⟨max width 1, false⟩

def tabs : IndentStyle := ⟨4, true⟩

def standard : IndentStyle := spaces 4

/-- Looks at the lines that are not blank. A tab decides as long as no unit is known; otherwise the
smallest indentation of two to eight spaces is the unit. -/
def detectFrom (smallest : Option Nat) : List (List Char) → IndentStyle
  | [] => (smallest.map spaces).getD standard
  | line :: rest =>
    if line.all Text.isBlank then detectFrom smallest rest
    else if line.head? = some '\t' then
      if smallest.isNone then tabs else detectFrom smallest rest
    else
      let count := (line.takeWhile (· == ' ')).length
      if 2 ≤ count ∧ count ≤ 8 then detectFrom (some (min count (smallest.getD count))) rest
      else detectFrom smallest rest

def detect (text : List Char) : IndentStyle := detectFrom none (Text.lines text)

/-- Columns are counted in 64 bits and wrap around. -/
def columnLimit : Nat := Nat.pow 2 64

def render (style : IndentStyle) (level : Nat) : List Char :=
  if style.useTabs then List.replicate level '\t'
  else List.replicate (level * style.width % columnLimit) ' '

def unit (style : IndentStyle) : List Char := style.render 1

def columns (style : IndentStyle) (indentation : List Char) : Nat :=
  indentation.foldr (fun c n => ((if c = '\t' then style.width else 1) + n) % columnLimit) 0

/-- The whole levels in an indentation whose columns do not wrap. -/
def levelOf (style : IndentStyle) (indentation : List Char) : Nat :=
  style.columns indentation / max style.width 1

end IndentStyle

inductive LineEnding where
  | lf
  | crlf
  deriving DecidableEq, Repr, Inhabited

namespace LineEnding

def text : LineEnding → List Char
  | lf => ['\n']
  | crlf => ['\r', '\n']

/-- The first line feed decides: with a carriage return right before it, lines end in both. -/
def detectFrom (last : Option Char) : List Char → LineEnding
  | [] => lf
  | c :: cs =>
    if c = '\n' then if last = some '\r' then crlf else lf
    else detectFrom (some c) cs

def detect (text : List Char) : LineEnding := detectFrom none text

end LineEnding

structure Layout where
  indent : IndentStyle
  lineEnding : LineEnding
  deriving DecidableEq, Repr, Inhabited

namespace Layout

def standard : Layout := ⟨.standard, .lf⟩

def detect (text : List Char) : Layout := ⟨.detect text, .detect text⟩

def newLine (layout : Layout) (level : Nat) : List Source.Token :=
  Source.newlineAndIndent layout.lineEnding.text (layout.indent.render level)

def levelAfter (layout : Layout) (before : List Source.Token) : Nat :=
  layout.indent.levelOf (Source.lineIndentation before)

end Layout

end PackageManifest
