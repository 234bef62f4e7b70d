import PackageManifest.Text.Basic
import PackageManifest.Toml.Blank

/-!
# Quoted strings of TOML

Between double quotes a backslash starts an escape; between single quotes every character stands for
itself. A string between three quotes may span lines.
-/

namespace PackageManifest.Toml

def hexNumber? (acc : Nat) : Nat → List Char → Option (Nat × List Char)
  | 0, cs => some (acc, cs)
  | _ + 1, [] => none
  | n + 1, c :: cs =>
    match Text.hexDigit? c with
    | none => none
    | some d => hexNumber? (16 * acc + d) n cs

def codePoint? (digits : Nat) (cs : List Char) : Option (Char × List Char) :=
  match hexNumber? 0 digits cs with
  | none => none
  | some (n, rest) => if n.isValidChar then some (Char.ofNat n, rest) else none

def escape? : List Char → Option (Char × List Char)
  | 'b' :: rest => some ('\x08', rest)
  | 't' :: rest => some ('\t', rest)
  | 'n' :: rest => some ('\n', rest)
  | 'f' :: rest => some ('\x0c', rest)
  | 'r' :: rest => some ('\r', rest)
  | 'e' :: rest => some ('\x1b', rest)
  | '"' :: rest => some ('"', rest)
  | '\\' :: rest => some ('\\', rest)
  | 'x' :: rest => codePoint? 2 rest
  | 'u' :: rest => codePoint? 4 rest
  | 'U' :: rest => codePoint? 8 rest
  | _ => none

def basicString? (fuel : Nat) (cs : List Char) : Option (List Char × List Char) :=
  match fuel with
  | 0 => none
  | fuel + 1 =>
    match cs with
    | [] => none
    | '"' :: rest => some ([], rest)
    | '\\' :: rest =>
      match escape? rest with
      | none => none
      | some (c, rest) => (basicString? fuel rest).map fun (more, rest) => (c :: more, rest)
    | c :: rest =>
      if isControl c then none
      else (basicString? fuel rest).map fun (more, rest) => (c :: more, rest)

def literalString? : List Char → Option (List Char × List Char)
  | [] => none
  | '\'' :: rest => some ([], rest)
  | c :: rest =>
    if isControl c then none else (literalString? rest).map fun (more, rest) => (c :: more, rest)

def skipBreaks : List Char → List Char
  | [] => []
  | '\r' :: '\n' :: rest => skipBreaks rest
  | c :: rest => if isTomlBlank c || c == '\n' then skipBreaks rest else c :: rest

/-- Skips blanks and line breaks, of which there is at least one behind the first blanks. -/
def continuation? (cs : List Char) : Option (List Char) :=
  (newline? (skipSpace cs)).map skipBreaks

/-- The end of a string that spans lines: three quotes, with up to two that belong to it before
them. -/
def closing? (quote : Char) (cs : List Char) : Option (List Char × List Char) :=
  let run := (cs.takeWhile (· == quote)).length
  if run < 3 then none
  else
    let inside := min (run - 3) 2
    some (List.replicate inside quote, cs.drop (inside + 3))

/-- A string between three double quotes, the first of which are passed. Line breaks stay as they
are written. -/
def longBasicString? (fuel : Nat) (cs : List Char) : Option (List Char × List Char) :=
  match fuel with
  | 0 => none
  | fuel + 1 =>
    match closing? '"' cs with
    | some done => some done
    | none =>
      match cs with
      | [] => none
      | '\\' :: rest =>
        match continuation? rest with
        | some rest => longBasicString? fuel rest
        | none =>
          match escape? rest with
          | none => none
          | some (c, rest) => (longBasicString? fuel rest).map fun (more, rest) => (c :: more, rest)
      | '\r' :: '\n' :: rest =>
        (longBasicString? fuel rest).map fun (more, rest) => ('\r' :: '\n' :: more, rest)
      | c :: rest =>
        if isControl c && c != '\n' then none
        else (longBasicString? fuel rest).map fun (more, rest) => (c :: more, rest)

def longLiteralString? (fuel : Nat) (cs : List Char) : Option (List Char × List Char) :=
  match fuel with
  | 0 => none
  | fuel + 1 =>
    match closing? '\'' cs with
    | some done => some done
    | none =>
      match cs with
      | [] => none
      | '\r' :: '\n' :: rest =>
        (longLiteralString? fuel rest).map fun (more, rest) => ('\r' :: '\n' :: more, rest)
      | c :: rest =>
        if isControl c && c != '\n' then none
        else (longLiteralString? fuel rest).map fun (more, rest) => (c :: more, rest)

/-- A line break right behind the opening quotes is not part of the string. -/
def skipFirstNewline (cs : List Char) : List Char := (newline? cs).getD cs

def string? (cs : List Char) : Option (List Char × List Char) :=
  let fuel := cs.length + 1
  match cs with
  | '"' :: '"' :: '"' :: rest => longBasicString? fuel (skipFirstNewline rest)
  | '\'' :: '\'' :: '\'' :: rest => longLiteralString? fuel (skipFirstNewline rest)
  | '"' :: rest => basicString? fuel rest
  | '\'' :: rest => literalString? rest
  | _ => none

end PackageManifest.Toml
