import PackageManifest.Source.Expression
import PackageManifest.Source.Lexeme
import PackageManifest.Source.ParseError

/-!
# The grammar of a manifest

A manifest is a sequence of imports, bindings and other statements. A declaration that the
structured grammar refuses is taken whole, like any other statement, as long as its delimiters
match.
-/

namespace PackageManifest.Source

structure Trouble where
  cause : Cause
  ahead : List Token
  deriving DecidableEq, Repr

def expectNext? (kind : TokenKind) (ts : List Token) : Option (Parsed (List Token) ts.length) :=
  match h : expect? kind (afterTrivia ts) with
  | none => none
  | some (t, rest) => some ⟨trivia ts ++ [t], rest, length_lt_of_expect?_afterTrivia h⟩

/-- A semicolon that ends a statement, or nothing if the statement ends anyway. -/
def statementEnd? (ts : List Token) : Option (Parsed (List Token) (ts.length + 1)) :=
  match expectNext? .semicolon ts with
  | some p => some (p.map id (length_le_succ ts))
  | none =>
    if nextKind ts = .eof || newlineAhead ts then some ⟨[], ts, length_lt_succ ts⟩ else none

theorem length_lt_of_name {ts : List Token} {dot : Parsed (List Token) ts.length}
    (name : Parsed (List Token) dot.rest.length) : name.rest.length < ts.length :=
  Nat.lt_trans name.shorter dot.shorter

def importPath (ts : List Token) : Option (Parsed (List Token) (ts.length + 1)) :=
  if newlineAhead ts then some ⟨[], ts, length_lt_succ ts⟩
  else
    match expectNext? .dot ts with
    | none => some ⟨[], ts, length_lt_succ ts⟩
    | some dot =>
      match expectNext? .ident dot.rest with
      | none => none
      | some name =>
        have hrest := length_lt_of_name name
        (importPath name.rest).map
          (Parsed.map (fun more => dot.value ++ name.value ++ more) (succ_le_succ_of_lt hrest))
termination_by ts.length

def importTail (ts : List Token) : Option (Parsed (List Token) ts.length) :=
  match expectNext? .ident ts with
  | none => none
  | some name =>
    match importPath name.rest with
    | none => none
    | some path =>
      match statementEnd? path.rest with
      | none => none
      | some last =>
        some (last.map (fun semicolon => name.value ++ path.value ++ semicolon) (by
          have := name.shorter
          have := path.shorter
          omega))

/-- A type up to the equals sign outside of delimiters that follows it; the trivia before that sign
is left. -/
def typeTokens (depth : Nat) (ts : List Token) : Option (Parsed (List Token) (ts.length + 1)) :=
  match h : afterTrivia ts with
  | [] => none
  | t :: rest =>
    if t.kind = .equals ∧ depth = 0 then some ⟨[], ts, length_lt_succ ts⟩
    else if t.kind.isClosing ∧ depth = 0 then none
    else
      let inner :=
        if t.kind.isOpening then depth + 1
        else if t.kind.isClosing then depth - 1
        else depth
      have hrest := length_lt_of_afterTrivia h
      (typeTokens inner rest).map
        (Parsed.map (fun more => trivia ts ++ t :: more) (succ_le_succ_of_lt hrest))
termination_by ts.length

def typeClause (ts : List Token) : Option (Parsed (List Tree) (ts.length + 1)) :=
  match h : expect? .colon (afterTrivia ts) with
  | none => some ⟨[], ts, length_lt_succ ts⟩
  | some (colon, rest) =>
    (typeTokens 0 rest).map (Parsed.map
      (fun inside => leaves (trivia ts) ++ [.node .typeClause (leaves (colon :: inside))])
      (by
        have := length_lt_of_expect?_afterTrivia h
        omega))

def bindingTail (ts : List Token) : Except Refusal (Parsed (List Tree) ts.length) :=
  match expectNext? .ident ts with
  | none => .error .unsupported
  | some name =>
    match typeClause name.rest with
    | none => .error .unsupported
    | some type =>
      match expectNext? .equals type.rest with
      | none => .error .unsupported
      | some equals =>
        match expression (afterTrivia equals.rest) with
        | .error e => .error e
        | .ok value =>
          match statementEnd? value.rest with
          | none => .error .unsupported
          | some last =>
            .ok (last.map
              (fun semicolon => leaves name.value ++ type.value ++ leaves equals.value ++
                leaves (trivia equals.rest) ++ value.value :: leaves semicolon)
              (by
                have := name.shorter
                have := type.shorter
                have := equals.shorter
                have := length_afterTrivia_le equals.rest
                have := value.shorter
                omega))

def declaration : Parser Tree
  | [] => .error .unsupported
  | t :: ts =>
    if t.kind = .importKw then
      match importTail ts with
      | none => .error .unsupported
      | some p =>
        .ok (p.map (fun inside => .node .importDecl (leaves (t :: inside))) (length_le_succ ts))
    else
      match bindingTail ts with
      | .error e => .error e
      | .ok p =>
        .ok (p.map (fun inside => .node .variableDecl (.token t :: inside)) (length_le_succ ts))

/-- Whether a statement goes on in the next line behind a token of this kind. -/
def continuesAfter : TokenKind → Bool
  | .operator | .equals | .comma | .colon | .dot | .atSign => true
  | _ => false

def continuesBefore : TokenKind → Bool
  | .dot | .operator | .equals => true
  | _ => false

/-- Whether a statement whose last token so far has the kind `last` ends before the tokens. -/
def endsBefore (last : TokenKind) (ts : List Token) : Bool :=
  nextKind ts == .eof ||
    (newlineAhead ts && !continuesAfter last && !continuesBefore (nextKind ts))

structure Opener where
  token : Token
  after : List Token
  deriving DecidableEq, Repr

def openAfter (opened : List Opener) (t : Token) (ts : List Token) :
    Except Trouble (List Opener) :=
  if t.kind.isOpening then .ok (⟨t, ts⟩ :: opened)
  else if t.kind.isClosing then
    match opened with
    | [] => .error ⟨.unopened t.text, t :: ts⟩
    | opener :: opened =>
      if opener.token.kind.closing? = some t.kind then .ok opened
      else .error ⟨.mismatched t.text opener.token.text, t :: ts⟩
  else .ok opened

/-- The tokens of one statement from `t` on. It ends at a semicolon or at the end of a line outside
of delimiters. -/
def statementTokens (opened : List Opener) (t : Token) (ts : List Token) :
    Except Trouble (Parsed (List Token) (ts.length + 1)) :=
  match openAfter opened t ts with
  | .error e => .error e
  | .ok inner =>
    if inner.isEmpty && (t.kind == .semicolon || endsBefore t.kind ts) then
      .ok ⟨[t], ts, Nat.lt_succ_self _⟩
    else
      match h : afterTrivia ts with
      | u :: us =>
        have hus : us.length < ts.length := by
          have := length_afterTrivia_le ts
          rw [h] at this
          exact this
        match statementTokens inner u us with
        | .error e => .error e
        | .ok p => .ok (p.map (fun more => t :: trivia ts ++ more) (by omega))
      | [] =>
        match inner with
        | opener :: _ =>
          .error ⟨.unclosed opener.token.text, opener.token :: opener.after⟩
        | [] => .ok ⟨t :: ts, [], Nat.zero_lt_succ _⟩
termination_by ts.length

def statement (t : Token) (ts : List Token) : Except Trouble (Parsed Tree (ts.length + 1)) :=
  match statementTokens [] t ts with
  | .error e => .error e
  | .ok p => .ok (p.map (fun inside => .node .statement (leaves inside)) (Nat.le_refl _))

def startsDeclaration : TokenKind → Bool
  | .importKw | .letKw | .varKw => true
  | _ => false

def item (t : Token) (ts : List Token) : Except Trouble (Parsed Tree (ts.length + 1)) :=
  if t.kind = .semicolon then .ok ⟨.token t, ts, Nat.lt_succ_self _⟩
  else if startsDeclaration t.kind then
    match declaration (t :: ts) with
    | .ok p => .ok p
    | .error (.tooDeep ahead) => .error ⟨.tooDeep maxNesting, ahead⟩
    | .error .unsupported => statement t ts
  else statement t ts

def items (ts : List Token) : Except Trouble (List Tree) :=
  match h : afterTrivia ts with
  | [] => .ok (leaves (trivia ts))
  | t :: rest =>
    match item t rest with
    | .error e => .error e
    | .ok p =>
      have : p.rest.length < ts.length := by
        have hts := length_afterTrivia_le ts
        rw [h] at hts
        exact Nat.lt_of_lt_of_le p.shorter hts
      match items p.rest with
      | .error e => .error e
      | .ok more => .ok (leaves (trivia ts) ++ p.value :: more)
termination_by ts.length

def parseTokens (input : List Char) (ts : List Token) : Except ParseError Tree :=
  match items ts with
  | .error e => .error (.atToken e.cause input e.ahead)
  | .ok children => .ok (.node .sourceFile children)

def parseText (input : List Char) : Except ParseError Tree :=
  match faults input with
  | fault :: _ => .error (.ofFault input fault)
  | [] => parseTokens input (tokens input)

def parseExpressionText (input : List Char) : Except ParseError Tree :=
  match faults input with
  | fault :: _ => .error (.ofFault input fault)
  | [] =>
    match expression (tokens input) with
    | .error (.tooDeep ahead) => .error (.atToken (.tooDeep maxNesting) input ahead)
    | .error .unsupported => .error (.between (.notExpression input) input input [])
    | .ok p =>
      if p.rest.isEmpty then .ok p.value
      else .error (.between (.notExpression input) input input [])

def parse (source : String) : Except ParseError Tree := parseText source.toList

def parseExpression (source : String) : Except ParseError Tree :=
  parseExpressionText source.toList

end PackageManifest.Source
