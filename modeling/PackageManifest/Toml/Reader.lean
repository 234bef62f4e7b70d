import PackageManifest.Toml.Quoted
import PackageManifest.Toml.Scalar

/-!
# Reading TOML

The grammar of TOML 1.1, line by line. Each rule answers with what it read and the text behind it;
a document is read as a whole or not at all.
-/

namespace PackageManifest.Toml

/-- How deep arrays and tables in braces may nest, and how many parts a key may have. -/
def nestingLimit : Nat := 80

def isBareKeyChar (c : Char) : Bool := c.isAlphanum || c == '_' || c == '-'

def simpleKey? (cs : List Char) : Option (String × List Char) :=
  match cs with
  | '"' :: rest =>
    (basicString? (rest.length + 1) rest).map fun (key, rest) => (String.ofList key, rest)
  | '\'' :: rest => (literalString? rest).map fun (key, rest) => (String.ofList key, rest)
  | cs =>
    let key := cs.takeWhile isBareKeyChar
    if key.isEmpty then none else some (String.ofList key, cs.dropWhile isBareKeyChar)

def key? (limit : Nat) (cs : List Char) : Option ((List String × String) × List Char) :=
  match limit with
  | 0 => none
  | limit + 1 =>
    match simpleKey? cs with
    | none => none
    | some (part, rest) =>
      match skipSpace rest with
      | '.' :: rest =>
        (key? limit (skipSpace rest)).map fun ((parts, last), rest) => ((part :: parts, last), rest)
      | rest => some (([], part), rest)

mutual

/-- A value at the start of a text, in which `depth` more brackets may open inside each other;
`fuel` exceeds the length of the text. -/
def value? (fuel depth : Nat) (cs : List Char) : Option (Toml × List Char) :=
  match fuel with
  | 0 => none
  | fuel + 1 =>
    match cs, depth with
    | '[' :: rest, depth + 1 =>
      (items? fuel depth rest).map fun (items, rest) => (.array items, rest)
    | '\x7b' :: rest, depth + 1 =>
      (fields? fuel depth [] rest).map fun (entries, rest) => (.table (closeEntries entries), rest)
    | '"' :: _, _ | '\'' :: _, _ =>
      (string? cs).map fun (text, rest) => (.string (String.ofList text), rest)
    | cs, _ => scalar? cs

def items? (fuel depth : Nat) (cs : List Char) : Option (List Toml × List Char) :=
  match fuel with
  | 0 => none
  | fuel + 1 =>
    match skipLines? (cs.length + 1) cs with
    | none => none
    | some (']' :: rest) => some ([], rest)
    | some rest =>
      match value? fuel depth rest with
      | none => none
      | some (item, rest) =>
        match skipLines? (rest.length + 1) rest with
        | some (',' :: rest) =>
          (items? fuel depth rest).map fun (more, rest) => (item :: more, rest)
        | some (']' :: rest) => some ([item], rest)
        | _ => none

/-- The fields of a table in braces, added to those before; a comma may follow the last, and lines
may break on both sides of an equals sign. -/
def fields? (fuel depth : Nat) (entries : Entries) (cs : List Char) :
    Option (Entries × List Char) :=
  match fuel with
  | 0 => none
  | fuel + 1 =>
    match skipLines? (cs.length + 1) cs with
    | none => none
    | some ('\x7d' :: rest) => some (entries, rest)
    | some rest =>
      match key? nestingLimit rest with
      | none => none
      | some ((path, name), rest) =>
        match skipLines? (rest.length + 1) rest with
        | some ('=' :: rest) =>
          match (skipLines? (rest.length + 1) rest).bind (value? fuel depth) with
          | none => none
          | some (value, rest) =>
            match insertAt path name value entries with
            | none => none
            | some entries =>
              match skipLines? (rest.length + 1) rest with
              | some (',' :: rest) => fields? fuel depth entries rest
              | some ('\x7d' :: rest) => some (entries, rest)
              | _ => none
        | _ => none

end

structure State where
  entries : Entries
  current : List String

def line? (s : State) (cs : List Char) : Option (State × List Char) :=
  let cs := skipSpace cs
  match cs with
  | '[' :: '[' :: rest =>
    match key? nestingLimit (skipSpace rest) with
    | some ((path, name), ']' :: ']' :: rest) =>
      (descend false (openItem name) s.entries path).map fun entries =>
        (⟨entries, path ++ [name]⟩, rest)
    | _ => none
  | '[' :: rest =>
    match key? nestingLimit (skipSpace rest) with
    | some ((path, name), ']' :: rest) =>
      (descend false (openTable name) s.entries path).map fun entries =>
        (⟨entries, path ++ [name]⟩, rest)
    | _ => none
  | [] => some (s, [])
  | c :: _ =>
    if c == '#' || (newline? cs).isSome then some (s, cs)
    else
      match key? nestingLimit cs with
      | some ((path, name), '=' :: rest) =>
        match value? (rest.length + 1) nestingLimit (skipSpace rest) with
        | none => none
        | some (value, rest) =>
          (descend false (insertAt path name value) s.entries s.current).map fun entries =>
            (⟨entries, s.current⟩, rest)
      | _ => none

def lines? (fuel : Nat) (s : State) (cs : List Char) : Option State :=
  match fuel with
  | 0 => none
  | fuel + 1 =>
    match line? s cs with
    | none => none
    | some (s, rest) =>
      match skipComment? (skipSpace rest) with
      | none => none
      | some [] => some s
      | some rest =>
        match newline? rest with
        | none => none
        | some rest => lines? fuel s rest

def skipByteOrderMark : List Char → List Char
  | c :: cs => if c.toNat == 0xFEFF then cs else c :: cs
  | [] => []

def parse? (text : List Char) : Option (List (String × Toml)) :=
  (lines? (text.length + 1) ⟨[], []⟩ (skipByteOrderMark text)).map fun s => closeEntries s.entries

end PackageManifest.Toml
