import PackageManifest.Text.Basic

/-!
# String literals

`encode` writes a text as a literal on one line. `decode?` reads the text of a literal, and refuses
those that span lines or interpolate.
-/

namespace PackageManifest.Source.Literal

def encodeChar (c : Char) : List Char :=
  if c = '\\' then ['\\', '\\']
  else if c = '"' then ['\\', '"']
  else if c = '\n' then ['\\', 'n']
  else if c = '\r' then ['\\', 'r']
  else if c = '\t' then ['\\', 't']
  else [c]

def encode (cs : List Char) : List Char := '"' :: cs.flatMap encodeChar ++ ['"']

def escaped (c : Char) : Char :=
  if c = 'n' then '\n'
  else if c = 't' then '\t'
  else if c = 'r' then '\r'
  else if c = '0' then '\x00'
  else c

/-- What stands between the quotes of a literal without pound signs, with its escapes replaced. -/
def unescape : List Char → Option (List Char)
  | [] => some []
  | [c] => if c = '\\' then none else some [c]
  | c :: d :: cs =>
    if c = '\\' then
      if d = '(' then none else (unescape cs).map (escaped d :: ·)
    else (unescape (d :: cs)).map (c :: ·)

def occursIn (part : List Char) : List Char → Bool
  | [] => part.isEmpty
  | c :: cs => Text.startsWith part (c :: cs) || occursIn part cs

def unquote? (cs : List Char) : Option (List Char) :=
  match cs with
  | '"' :: more => Text.before? ['"'] more
  | _ => none

/-- The text of a literal; in one with pound signs a backslash stands for itself. -/
def decode? (literal : List Char) : Option (List Char) :=
  let pounds := (literal.takeWhile (· == '#')).length
  let body := (literal.drop pounds).take (literal.length - 2 * pounds)
  if Text.startsWith ['"', '"', '"'] body then none
  else
    match unquote? body with
    | none => none
    | some inner =>
      if pounds = 0 then unescape inner
      else if occursIn ('\\' :: List.replicate pounds '#' ++ ['(']) inner then none
      else some inner

end PackageManifest.Source.Literal
