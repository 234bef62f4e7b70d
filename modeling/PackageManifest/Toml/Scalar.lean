import PackageManifest.Toml.Basic
import PackageManifest.Toml.Moment

/-!
# Bare values of TOML

A value that is neither quoted nor bracketed is one word: a truth value, a number or a moment. A
word that starts as a whole number is a value even where something else follows its underscores;
only who asks for the number finds that there is none.
-/

namespace PackageManifest.Toml

def endsWord (c : Char) : Bool :=
  c == ' ' || c == '\t' || c == '\r' || c == '\n' || c == '#' || c == '=' || c == ',' ||
    c == '[' || c == ']' || c == '\x7b' || c == '\x7d'

def wordOf (cs : List Char) : List Char := cs.takeWhile fun c => !endsWord c

def stripSign : List Char → List Char
  | '+' :: rest => rest
  | '-' :: rest => rest
  | cs => cs

def isHexDigit (c : Char) : Bool := (Text.hexDigit? c).isSome

def isExponentMark (c : Char) : Bool := c == 'e' || c == 'E'

/-- Whether each underscore has a digit before and behind it; `before` tells whether a digit
precedes the text. -/
def isSeparated (isDigit : Char → Bool) (before : Bool) : List Char → Bool
  | [] => true
  | c :: rest =>
    if c == '_' then before && rest.head?.any isDigit && isSeparated isDigit false rest
    else isSeparated isDigit (isDigit c) rest

def withoutUnderscores (cs : List Char) : List Char := cs.filter (· != '_')

/-- A whole number behind the mark of its base. Without digits it is a value, but not a number. -/
def basedValue? (base : Nat) (digits : List Char) : Option Toml :=
  if digits.all (fun c => c == '_' || (Text.hexDigit? c).any (· < base)) &&
      isSeparated isHexDigit false digits then
    some (if digits.isEmpty then .other else .integer (valueOf base (withoutUnderscores digits)))
  else none

def wholeValue (word : List Char) : Toml :=
  let digits := withoutUnderscores (stripSign word)
  if digits.all Char.isDigit then
    .integer (if word.head? = some '-' then -(valueOf 10 digits : Int) else valueOf 10 digits)
  else .other

def digitRun? (cs : List Char) : Option (List Char) :=
  let run := cs.takeWhile fun c => c.isDigit || c == '_'
  if run.any Char.isDigit then some (cs.drop run.length) else none

/-- What follows the digits before a point; several of them do not start with a zero. -/
def mantissa? (cs : List Char) : Option (List Char) :=
  let run := cs.takeWhile fun c => c.isDigit || c == '_'
  if run.head? = some '0' && 1 < run.countP Char.isDigit then none else digitRun? cs

def fraction? : List Char → Option (List Char)
  | '.' :: rest => digitRun? rest
  | cs => some cs

def exponent? : List Char → Option (List Char)
  | [] => some []
  | c :: rest => if isExponentMark c then digitRun? (stripSign rest) else some (c :: rest)

def isFloat (cs : List Char) : Bool := ((mantissa? cs).bind fraction?).bind exponent? == some []

/-- A number in base ten or a moment. What follows the first digits decides which. -/
def numberOrMoment? (word : List Char) : Option Toml :=
  let value := stripSign word
  let rest := value.dropWhile Char.isDigit
  if value.isEmpty then none
  else if rest.isEmpty then
    if value.head? = some '0' && value.length != 1 then none else some (wholeValue word)
  else if rest.head? = some '-' || rest.head? = some ':' then
    if isMoment word then some .other else none
  else if rest.any fun c => c == '.' || isExponentMark c then
    if isFloat value && isSeparated Char.isDigit false word then some .other else none
  else if rest.head? = some '_' && value.head? != some '0' && isSeparated isHexDigit false word then
    some (wholeValue word)
  else none

def wordValue? (word : List Char) : Option Toml :=
  match word with
  | '0' :: 'x' :: digits => basedValue? 16 digits
  | '0' :: 'o' :: digits => basedValue? 8 digits
  | '0' :: 'b' :: digits => basedValue? 2 digits
  | word =>
    if word == "true".toList then some (.boolean true)
    else if word == "false".toList then some (.boolean false)
    else if stripSign word == "inf".toList || stripSign word == "nan".toList then some .other
    else numberOrMoment? word

/-- A bare value and what follows it. A date and a time may have one blank between them. -/
def scalar? (cs : List Char) : Option (Toml × List Char) :=
  let word := wordOf cs
  let rest := cs.drop word.length
  let joined := word ++ ' ' :: wordOf rest.tail
  if rest.head? = some ' ' && isDate word && isMoment joined then
    some (.other, cs.drop joined.length)
  else (wordValue? word).map fun value => (value, rest)

end PackageManifest.Toml
