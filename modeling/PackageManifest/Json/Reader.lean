import PackageManifest.Json.Basic
import PackageManifest.Text.Basic

/-!
# Reading JSON

A text is one value with blanks around it and nothing else. Each rule answers with what it read and
the text behind it.
-/

namespace PackageManifest.Json

def isJsonBlank (c : Char) : Bool := c == ' ' || c == '\n' || c == '\t' || c == '\r'

def skipBlanks (cs : List Char) : List Char := cs.dropWhile isJsonBlank

def unit? : List Char → Option (Nat × List Char)
  | a :: b :: c :: d :: rest =>
    match Text.hexDigit? a, Text.hexDigit? b, Text.hexDigit? c, Text.hexDigit? d with
    | some a, some b, some c, some d => some (((a * 16 + b) * 16 + c) * 16 + d, rest)
    | _, _, _, _ => none
  | _ => none

def simpleEscape? : Char → Option Char
  | '"' => some '"'
  | '\\' => some '\\'
  | '/' => some '/'
  | 'b' => some '\x08'
  | 'f' => some '\x0c'
  | 'n' => some '\n'
  | 'r' => some '\r'
  | 't' => some '\t'
  | _ => none

inductive Piece where
  | char (c : Char)
  | high (unit : Nat)
  | low (unit : Nat)

def pieceOfUnit (n : Nat) : Piece :=
  if 0xD800 ≤ n && n ≤ 0xDBFF then .high n
  else if 0xDC00 ≤ n && n ≤ 0xDFFF then .low n
  else .char (Char.ofNat n)

def pieces? (fuel : Nat) (cs : List Char) : Option (List Piece × List Char) :=
  match fuel with
  | 0 => none
  | fuel + 1 =>
    match cs with
    | [] => none
    | '"' :: rest => some ([], rest)
    | '\\' :: 'u' :: rest =>
      match unit? rest with
      | none => none
      | some (n, rest) =>
        (pieces? fuel rest).map fun (more, rest) => (pieceOfUnit n :: more, rest)
    | '\\' :: c :: rest =>
      match simpleEscape? c with
      | none => none
      | some c => (pieces? fuel rest).map fun (more, rest) => (.char c :: more, rest)
    | c :: rest =>
      if c == '\\' || c.toNat < 0x20 then none
      else (pieces? fuel rest).map fun (more, rest) => (.char c :: more, rest)

def textOfPieces : List Piece → Option (List Char)
  | [] => some []
  | .char c :: more => (textOfPieces more).map (c :: ·)
  | .high a :: .low b :: more =>
    (textOfPieces more).map (Char.ofNat (0x10000 + (a - 0xD800) * 0x400 + (b - 0xDC00)) :: ·)
  | _ => none

def string? (cs : List Char) : Option (Option String × List Char) :=
  (pieces? (cs.length + 1) cs).map fun (pieces, rest) =>
    ((textOfPieces pieces).map String.ofList, rest)

def digitsValue (digits : List Char) : Nat :=
  digits.foldl (fun n c => 10 * n + (c.toNat - '0'.toNat)) 0

def digits? (cs : List Char) : Option (List Char × List Char) :=
  let digits := cs.takeWhile Char.isDigit
  if digits.isEmpty then none else some (digits, cs.dropWhile Char.isDigit)

/-- The digits before a point; a zero stands alone. -/
def integerPart? (cs : List Char) : Option (List Char × List Char) :=
  match cs with
  | '0' :: c :: rest => if c.isDigit then none else some (['0'], c :: rest)
  | cs => digits? cs

def fraction? (cs : List Char) : Option (List Char × List Char) :=
  match cs with
  | '.' :: rest => digits? rest
  | cs => some ([], cs)

def exponent? (cs : List Char) : Option (Int × List Char) :=
  let signed (sign : Int) (cs : List Char) : Option (Int × List Char) :=
    (digits? cs).map fun (digits, rest) => (sign * (digitsValue digits : Int), rest)
  let tail : List Char → Option (Int × List Char)
    | '+' :: rest => signed 1 rest
    | '-' :: rest => signed (-1) rest
    | rest => signed 1 rest
  match cs with
  | 'e' :: rest => tail rest
  | 'E' :: rest => tail rest
  | cs => some (0, cs)

def number? (cs : List Char) : Option (Json × List Char) :=
  match integerPart? cs with
  | none => none
  | some (whole, rest) =>
    match fraction? rest with
    | none => none
    | some (places, rest) =>
      match exponent? rest with
      | none => none
      | some (exponent, rest) =>
        let (significand, scale) := significandOf whole places
        some (.number significand (scale + exponent), rest)

def word? (word : String) (value : Json) (cs : List Char) : Option (Json × List Char) :=
  (Text.after? word.toList cs).map fun rest => (value, rest)

mutual

/-- A value at the start of a text; `fuel` exceeds the length of the text. -/
def value? (fuel : Nat) (cs : List Char) : Option (Json × List Char) :=
  match fuel with
  | 0 => none
  | fuel + 1 =>
    match cs with
    | [] => none
    | c :: rest =>
      if c == '"' then (string? rest).map fun (text, rest) => (.string text, rest)
      else if c == '[' then
        match skipBlanks rest with
        | ']' :: rest => some (.array [], rest)
        | rest => (items? fuel rest).map fun (items, rest) => (.array items, rest)
      else if c == '\x7b' then
        match skipBlanks rest with
        | '\x7d' :: rest => some (.object [], rest)
        | rest => (fields? fuel rest).map fun (fields, rest) => (.object fields, rest)
      else if c == '-' then number? rest
      else if c.isDigit then number? (c :: rest)
      else if c == 't' then word? "true" (.bool true) (c :: rest)
      else if c == 'f' then word? "false" (.bool false) (c :: rest)
      else word? "null" .null (c :: rest)

def items? (fuel : Nat) (cs : List Char) : Option (List Json × List Char) :=
  match fuel with
  | 0 => none
  | fuel + 1 =>
    match value? fuel cs with
    | none => none
    | some (item, rest) =>
      match skipBlanks rest with
      | ',' :: rest => (items? fuel (skipBlanks rest)).map fun (more, rest) => (item :: more, rest)
      | ']' :: rest => some ([item], rest)
      | _ => none

def fields? (fuel : Nat) (cs : List Char) : Option (List (Option String × Json) × List Char) :=
  match fuel with
  | 0 => none
  | fuel + 1 =>
    match cs with
    | '"' :: rest =>
      match string? rest with
      | none => none
      | some (name, rest) =>
        match skipBlanks rest with
        | ':' :: rest =>
          match value? fuel (skipBlanks rest) with
          | none => none
          | some (item, rest) =>
            match skipBlanks rest with
            | ',' :: rest =>
              (fields? fuel (skipBlanks rest)).map fun (more, rest) => ((name, item) :: more, rest)
            | '\x7d' :: rest => some ([(name, item)], rest)
            | _ => none
        | _ => none
    | _ => none

end

def parse? (text : List Char) : Option Json :=
  match value? (text.length + 1) (skipBlanks text) with
  | none => none
  | some (value, rest) => if (skipBlanks rest).isEmpty then some value else none

end PackageManifest.Json
