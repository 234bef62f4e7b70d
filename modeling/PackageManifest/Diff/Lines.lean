/-!
# Lines with their ends

The lines that a diff compares: each keeps its line break, which is a line feed, a carriage return
or both, so the lines of a text make up the text.
-/

namespace PackageManifest.Diff

/-- Cuts a text behind every line break; `line` is what was read of the line, last character
first. -/
def linesFrom (line : List Char) : List Char → List (List Char)
  | [] => if line.isEmpty then [] else [line.reverse]
  | '\r' :: '\n' :: cs => (line.reverse ++ ['\r', '\n']) :: linesFrom [] cs
  | c :: cs =>
    if c = '\n' || c = '\r' then (line.reverse ++ [c]) :: linesFrom [] cs
    else linesFrom (c :: line) cs

def lines (text : String) : List (List Char) := linesFrom [] text.toList

def endsLine (line : List Char) : Bool :=
  match line.getLast? with
  | some c => c == '\n' || c == '\r'
  | none => false

end PackageManifest.Diff
