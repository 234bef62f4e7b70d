import PackageManifest.Json.Basic
import PackageManifest.Text.Basic

/-!
# Writing JSON

A value over several lines: every item and field on a line of its own, two columns further in, and
empty arrays and objects in one piece.
-/

namespace PackageManifest.Json

/-- A character as it is written in a string: quotes, backslashes and control characters are
escaped. -/
def writeChar (c : Char) : List Char :=
  if c = '"' then ['\\', '"']
  else if c = '\\' then ['\\', '\\']
  else if c = '\n' then ['\\', 'n']
  else if c = '\r' then ['\\', 'r']
  else if c = '\t' then ['\\', 't']
  else if c = '\x08' then ['\\', 'b']
  else if c = '\x0c' then ['\\', 'f']
  else if c.toNat < 0x20 then
    ['\\', 'u', '0', '0'] ++ (if c.toNat < 0x10 then ['0'] else []) ++ Text.hex c.toNat
  else [c]

def writeString (s : String) : String := "\"" ++ String.ofList (s.toList.flatMap writeChar) ++ "\""

def lineBreak (level : Nat) : String := "\n" ++ String.ofList (List.replicate (2 * level) ' ')

mutual

/-- A value whose first line is at a given level. Numbers are whole. -/
def pretty (level : Nat) : Json → String
  | null => "null"
  | bool b => if b then "true" else "false"
  | number digits _ => digits.repr
  | string text => writeString (text.getD "")
  | array items =>
    if items.isEmpty then "[]"
    else "[" ++ prettyItems (level + 1) items ++ lineBreak level ++ "]"
  | object fields =>
    if fields.isEmpty then "\x7b\x7d"
    else "\x7b" ++ prettyFields (level + 1) fields ++ lineBreak level ++ "\x7d"

def prettyItems (level : Nat) : List Json → String
  | [] => ""
  | [item] => lineBreak level ++ item.pretty level
  | item :: items => lineBreak level ++ item.pretty level ++ "," ++ prettyItems level items

def prettyFields (level : Nat) : List (Option String × Json) → String
  | [] => ""
  | [(name, item)] => lineBreak level ++ writeString (name.getD "") ++ ": " ++ item.pretty level
  | (name, item) :: fields =>
    lineBreak level ++ writeString (name.getD "") ++ ": " ++ item.pretty level ++ "," ++
      prettyFields level fields

end

def print (value : Json) : String := value.pretty 0

def ofFields (fields : List (String × Json)) : Json :=
  object (fields.map fun (name, value) => (some name, value))

def ofStrings (items : List String) : Json := array (items.map ofString)

end PackageManifest.Json
