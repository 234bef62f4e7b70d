/-!
# Colours of a terminal

A painted text stands between a sequence that sets its style and one that resets it.
-/

namespace PackageManifest.CommandLine

inductive Style where
  | bold
  | dimmed
  | red
  | green
  | cyan
  | white
  | brightBlack
  | brightBlue
  | boldRed
  | boldGreen
  | boldYellow
  | boldBlue
  deriving DecidableEq, Repr

def Style.codes : Style → String
  | bold => "1"
  | dimmed => "2"
  | red => "31"
  | green => "32"
  | cyan => "36"
  | white => "37"
  | brightBlack => "90"
  | brightBlue => "94"
  | boldRed => "1;31"
  | boldGreen => "1;32"
  | boldYellow => "1;33"
  | boldBlue => "1;34"

def Style.start (style : Style) : String := "\x1b[" ++ style.codes ++ "m"

def reset : String := "\x1b[0m"

/-- A text in a style, if there are colours. The style is set again behind a reset in the text. -/
def paint (colours : Bool) (style : Style) (text : String) : String :=
  if colours then
    style.start ++ (reset ++ style.start).intercalate (text.splitOn reset) ++ reset
  else text

end PackageManifest.CommandLine
