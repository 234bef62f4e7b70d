import PackageManifest.Source.Cursor

/-!
# Trivia around a token

Trivia behind a token belongs to it up to the end of the line; the rest belongs to the token that
follows. Line queries look at the tokens before a place only.
-/

namespace PackageManifest.Source

/-- Trivia that does not end a line by itself. -/
def Token.isInlineTrivia (t : Token) : Bool := t.isTrivia && t.kind != .newline

/-- The trivia behind a token that belongs to it, given the tokens after it. -/
def trailingTrivia (after : List Token) : List Token := after.takeWhile Token.isInlineTrivia

/-- The trivia before a token that belongs to it, given the tokens before it: all there is at the
start of a file, elsewhere from the first line break on. -/
def leadingTrivia (before : List Token) : List Token :=
  let run := (before.reverse.takeWhile Token.isTrivia).reverse
  if run.length = before.length then run else run.dropWhile fun t => t.kind != .newline

def containsNewline (ts : List Token) : Bool := ts.any Token.breaksLine

def hasComments (ts : List Token) : Bool := ts.any fun t => t.kind.isComment

def endsWithLineComment (ts : List Token) : Bool :=
  match ts.getLast? with
  | none => false
  | some t => t.kind == .lineComment

def afterBreak? (cs : List Char) : Option (List Char) :=
  if cs.any fun c => c == '\n' || c == '\r' then
    some (cs.reverse.takeWhile fun c => c != '\n' && c != '\r').reverse
  else none

/-- The text of the line that the tokens end in; the last token is the first of the list. -/
def lineBefore : List Token → List Char
  | [] => []
  | t :: before =>
    match afterBreak? t.text with
    | some line => line
    | none => lineBefore before ++ t.text

def isIndentChar (c : Char) : Bool := c == ' ' || c == '\t'

/-- The blanks that start the line of a token, given the tokens before it. -/
def lineIndentation (before : List Token) : List Char :=
  (lineBefore before.reverse).takeWhile isIndentChar

/-- Whether a line break separates a token from the significant token before it. -/
def startsLine (before : List Token) : Bool :=
  (before.reverse.takeWhile Token.isTrivia).any Token.breaksLine

def contexts (before : List Token) : List Token → List (List Token × Token × List Token)
  | [] => []
  | t :: after => (before, t, after) :: contexts (before ++ [t]) after

def newlineAndIndent (newline indent : List Char) : List Token :=
  ⟨.newline, newline⟩ :: (if indent.isEmpty then [] else [⟨.whitespace, indent⟩])

def oneSpace : List Token := [⟨.whitespace, [' ']⟩]

end PackageManifest.Source
