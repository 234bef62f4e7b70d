import PackageManifest.Source.StringScan
import PackageManifest.Text.Letters

/-!
# Cutting an input into tokens

`Lexeme` is the first token of an input together with what is left; that the two make up the input
and that the token is not empty is part of the type. `tokens` repeats the cut to the end, so no
character is lost, whether or not there are faults.
-/

namespace PackageManifest.Source

def isSpace (c : Char) : Bool := c == ' ' || c == '\t' || c == '\x0b' || c == '\x0c'

def isBreak (c : Char) : Bool := c == '\n' || c == '\r'

def isNameStart (c : Char) : Bool := c == '_' || Text.isAlphabetic c

def isNamePart (c : Char) : Bool := c == '_' || Text.isAlphanumeric c

def isOperatorChar (c : Char) : Bool :=
  ['/', '=', '-', '+', '!', '*', '%', '<', '>', '&', '|', '^', '~', '?'].contains c

def punctuation? : Char → Option TokenKind
  | '(' => some .lParen
  | ')' => some .rParen
  | '[' => some .lBracket
  | ']' => some .rBracket
  | '\x7b' => some .lBrace
  | '\x7d' => some .rBrace
  | ',' => some .comma
  | ':' => some .colon
  | ';' => some .semicolon
  | '@' => some .atSign
  | '\\' => some .backslash
  | _ => none

/-- The first token of `input`, what is left behind it, and what is wrong with it if anything. -/
structure Lexeme (input : List Char) where
  kind : TokenKind
  text : List Char
  rest : List Char
  fault : Option Fault
  whole : text ++ rest = input
  nonempty : text ≠ []

namespace Lexeme

def token {input : List Char} (l : Lexeme input) : Token := ⟨l.kind, l.text⟩

theorem length_rest_lt {input : List Char} (l : Lexeme input) :
    l.rest.length < input.length := by
  have := congrArg List.length l.whole
  have := List.length_pos_iff.2 l.nonempty
  simp only [List.length_append] at *
  omega

def run (kind : TokenKind) (p : Char → Bool) (c : Char) (cs : List Char) : Lexeme (c :: cs) :=
  ⟨kind, c :: cs.takeWhile p, cs.dropWhile p, none,
    by rw [List.cons_append, List.takeWhile_append_dropWhile], List.cons_ne_nil _ _⟩

def single (kind : TokenKind) (c : Char) (cs : List Char) (fault : Option Fault) :
    Lexeme (c :: cs) :=
  ⟨kind, [c], cs, fault, rfl, List.cons_ne_nil _ _⟩

def upTo (kind : TokenKind) (c : Char) {cs : List Char} (rest : Tail cs) (fault : Option Fault) :
    Lexeme (c :: cs) :=
  ⟨kind, c :: cs.take (cs.length - rest.1.length), rest.1, fault,
    by
      obtain ⟨rest, start, rfl⟩ := rest
      simp,
    List.cons_ne_nil _ _⟩

end Lexeme

/-- What is left behind a comment of which `depth` openings are to be closed. -/
def closeComment? (depth : Nat) : (cs : List Char) → Option (Tail cs)
  | [] => none
  | [_] => none
  | a :: b :: cs =>
    if a = '/' ∧ b = '*' then
      (closeComment? (depth + 1) cs).map (Tail.lift ⟨[a, b], rfl⟩)
    else if a = '*' ∧ b = '/' then
      if depth ≤ 1 then some ⟨cs, ⟨[a, b], rfl⟩⟩
      else (closeComment? (depth - 1) cs).map (Tail.lift ⟨[a, b], rfl⟩)
    else (closeComment? depth (b :: cs)).map (Tail.lift (List.suffix_cons a (b :: cs)))

/-- What is left behind a number: digits and letters, and more of them after each point that a
digit follows. -/
def numberTail (cs : List Char) : Tail cs :=
  match h : cs.dropWhile isNamePart with
  | '.' :: d :: more =>
    have tail : '.' :: d :: more <:+ cs := h ▸ List.dropWhile_suffix isNamePart
    have := tail.length_le
    if d.isDigit then (numberTail (d :: more)).lift ((List.suffix_cons '.' _).trans tail)
    else ⟨'.' :: d :: more, tail⟩
  | rest => ⟨rest, h ▸ List.dropWhile_suffix isNamePart⟩
termination_by cs.length
decreasing_by simp only [List.length_cons] at *; omega

def startsComment : List Char → Bool
  | '/' :: '/' :: _ => true
  | '/' :: '*' :: _ => true
  | _ => false

theorem drop_one_suffix (cs : List Char) : cs.drop 1 <:+ cs := List.drop_suffix 1 cs

/-- What is left behind an operator: it ends before a comment. -/
def operatorTail : (cs : List Char) → Tail cs
  | [] => .whole []
  | c :: cs =>
    if !isOperatorChar c || startsComment (c :: cs) then .whole (c :: cs)
    else (operatorTail cs).lift (List.suffix_cons c cs)

def rangeTail (cs : List Char) : Tail cs :=
  match h : cs.dropWhile (· == '.') with
  | '<' :: rest => ⟨rest, (List.suffix_cons '<' rest).trans (h ▸ List.dropWhile_suffix _)⟩
  | rest => ⟨rest, h ▸ List.dropWhile_suffix _⟩

/-- What is left behind a name in backticks, of which the first is passed; the name is on one
line. -/
def closeName? (cs : List Char) : Option (Tail cs) :=
  match h : cs.dropWhile fun c => c != '\x60' && c != '\n' with
  | '\x60' :: rest =>
    some ⟨rest, (List.suffix_cons '\x60' rest).trans (h ▸ List.dropWhile_suffix _)⟩
  | _ => none

def lexeme (c : Char) (cs : List Char) : Lexeme (c :: cs) :=
  if isSpace c then .run .whitespace isSpace c cs
  else if c = '\n' then .single .newline c cs none
  else if c = '\r' then
    match cs with
    | '\n' :: rest => ⟨.newline, [c, '\n'], rest, none, rfl, List.cons_ne_nil _ _⟩
    | cs => .single .newline c cs none
  else if c = '/' ∧ cs.head? = some '/' then .run .lineComment (fun c => !isBreak c) c cs
  else if c = '/' ∧ cs.head? = some '*' then
    match closeComment? 1 (cs.drop 1) with
    | some rest => .upTo .blockComment c (rest.lift (drop_one_suffix cs)) none
    | none => .upTo .blockComment c ⟨[], List.nil_suffix⟩ (some ⟨.openComment, c :: cs, []⟩)
  else
    match h : Fence.open? (c :: cs) with
    | some (fence, body) =>
      have tail : body <:+ cs := by
        obtain ⟨start, hstart⟩ := Fence.suffix_of_open? h
        have hlt := Fence.length_lt_of_open? h
        cases start with
        | nil => simp_all
        | cons s start => exact ⟨start, (List.cons.inj hstart).2⟩
      match scanString fence (c :: cs) body with
      | .ok rest => .upTo .stringLit c (rest.lift tail) none
      | .error (fault, rest) => .upTo .stringLit c (rest.lift tail) (some fault)
    | none =>
      if c = '#' then .single .pound c cs none
      else if c = '\x60' then
        match closeName? cs with
        | some rest => .upTo .ident c rest none
        | none => .single .unknown c cs (some ⟨.openName, c :: cs, cs⟩)
      else if c = '$' then .run .ident isNamePart c cs
      else if c.isDigit then .upTo .numberLit c (numberTail cs) none
      else if isNameStart c then
        .run ((TokenKind.ofWord? (c :: cs.takeWhile isNamePart)).getD .ident) isNamePart c cs
      else
        match punctuation? c with
        | some kind => .single kind c cs none
        | none =>
          if c = '.' then
            if cs.head? = some '.' then .upTo .operator c (rangeTail cs) none
            else .single .dot c cs none
          else if isOperatorChar c then
            let rest := operatorTail cs
            .upTo (if c = '=' ∧ rest.1 = cs then .equals else .operator) c rest none
          else .single .unknown c cs (some ⟨.strayCharacter c, c :: cs, cs⟩)

def lexemes (input : List Char) : List (Token × Option Fault) :=
  match input with
  | [] => []
  | c :: cs =>
    let first := lexeme c cs
    (first.token, first.fault) :: lexemes first.rest
termination_by input.length
decreasing_by exact (lexeme c cs).length_rest_lt

def tokens (input : List Char) : List Token := (lexemes input).map Prod.fst

def faults (input : List Char) : List Fault := (lexemes input).filterMap Prod.snd

structure PlacedToken where
  token : Token
  span : Span
  deriving DecidableEq, Repr

/-- Tokens one behind the other from byte `start` on, and the empty one that marks the end. -/
def place (start : Nat) : List Token → List PlacedToken
  | [] => [⟨⟨.eof, []⟩, ⟨start, start⟩⟩]
  | t :: ts =>
    let stop := start + Text.size t.text
    ⟨t, ⟨start, stop⟩⟩ :: place stop ts

end PackageManifest.Source
