import PackageManifest.Source.Cursor

/-!
# The grammar of expressions

Every rule is a function of the rule for operands that may stand inside it, so `operand` is a plain
recursion on how deeply expressions may still nest. A rule takes the trivia between its parts and
leaves the trivia behind its last part.
-/

namespace PackageManifest.Source

def maxNesting : Nat := 256

/-- Tokens up to the one with which no closing delimiter is due any more. -/
def balanced (due : List TokenKind) : (ts : List Token) → Option (Parsed (List Token) ts.length)
  | [] => none
  | t :: ts =>
    match dueAfter due t.kind with
    | none => none
    | some [] => some ⟨[t], ts, Nat.lt_succ_self _⟩
    | some (close :: due) => (balanced (close :: due) ts).map (Parsed.map (t :: ·) (Nat.le_succ _))

def closure : Parser Tree := fun ts =>
  match balanced [] ts with
  | none => .error .unsupported
  | some p => .ok (p.map (fun inside => .node .closureExpr (leaves inside)) (Nat.le_refl _))

def isMemberName (t : Token) : Bool := t.kind.isNameLike || t.kind == .numberLit

/-- Operators and operands behind the first operand. Each `?` makes a `:` due. -/
def operations (operand : Parser Tree) (colonsDue : Nat) (ts : List Token) :
    Except Refusal (Parsed (List Tree) (ts.length + 1)) :=
  match h : afterTrivia ts with
  | [] => if colonsDue = 0 then .ok ⟨[], ts, Nat.lt_succ_self _⟩ else .error .unsupported
  | op :: after =>
    if op.kind = .operator ∨ (op.kind = .colon ∧ 0 < colonsDue) then
      let due :=
        if op.kind = .colon then colonsDue - 1
        else if op.text = ['?'] then colonsDue + 1
        else colonsDue
      have hts : after.length < ts.length := by
        have := length_afterTrivia_le ts
        rw [h] at this
        exact this
      have hafter := length_afterTrivia_le after
      match operand (afterTrivia after) with
      | .error e => .error e
      | .ok p =>
        have := p.shorter
        match operations operand due p.rest with
        | .error e => .error e
        | .ok more =>
          .ok (more.map
            (fun trees => leaves (trivia ts) ++ .token op :: leaves (trivia after) ++
              p.value :: trees)
            (by omega))
    else if colonsDue = 0 then .ok ⟨[], ts, Nat.lt_succ_self _⟩
    else .error .unsupported
termination_by ts.length

def sequence (operand : Parser Tree) : Parser Tree := fun ts =>
  match operand ts with
  | .error e => .error e
  | .ok first =>
    if nextKind first.rest = .operator then
      match operations operand 0 first.rest with
      | .error e => .error e
      | .ok more => .ok (more.map (fun trees => .node .sequenceExpr (first.value :: trees))
          first.shorter)
    else .ok first

/-- A label with its colon and the trivia behind that, and what follows; nothing if there is no
label. -/
def label (ts : List Token) : List Token × List Token :=
  match ts with
  | [] => ([], ts)
  | name :: rest =>
    if name.kind.isNameLike then
      match expect? .colon (afterTrivia rest) with
      | some (colon, after) => (name :: trivia rest ++ colon :: trivia after, afterTrivia after)
      | none => ([], ts)
    else ([], ts)

theorem length_label_le (ts : List Token) : (label ts).2.length ≤ ts.length := by
  unfold label
  split
  · exact Nat.le_refl _
  · split
    · split
      · rename_i h
        exact Nat.le_trans (length_afterTrivia_le _)
          (Nat.le_of_lt (Nat.lt_succ_of_lt (length_lt_of_expect?_afterTrivia h)))
      · exact Nat.le_refl _
    · exact Nat.le_refl _

structure Element where
  tree : Tree
  separated : Bool

def element (kind : NodeKind) (expr : Parser Tree) : Parser Element := fun ts =>
  let start := if kind = .argument then label ts else ([], ts)
  have hstart : start.2.length ≤ ts.length := by
    unfold start
    split
    · exact length_label_le ts
    · exact Nat.le_refl _
  match expr start.2 with
  | .error e => .error e
  | .ok value =>
    match h : expect? .comma (afterTrivia value.rest) with
    | some (comma, rest) =>
      .ok ⟨⟨.node kind (leaves start.1 ++ value.value :: leaves (trivia value.rest) ++
          [.token comma]), true⟩, rest, by
        have := length_lt_of_expect?_afterTrivia h
        have := value.shorter
        omega⟩
    | none =>
      .ok ⟨⟨.node kind (leaves start.1 ++ [value.value]), false⟩, value.rest, by
        have := value.shorter
        omega⟩

def elements (close : TokenKind) (item : Parser Element) (ts : List Token) :
    Except Refusal (Parsed (List Tree) ts.length) :=
  match h : expect? close (afterTrivia ts) with
  | some (t, rest) =>
    .ok ⟨leaves (trivia ts) ++ [.token t], rest, length_lt_of_expect?_afterTrivia h⟩
  | none =>
    have hts := length_afterTrivia_le ts
    match item (afterTrivia ts) with
    | .error e => .error e
    | .ok first =>
      have hfirst := first.shorter
      if first.value.separated then
        match elements close item first.rest with
        | .error e => .error e
        | .ok more =>
          .ok (more.map (fun trees => leaves (trivia ts) ++ first.value.tree :: trees) (by omega))
      else
        match hc : expect? close (afterTrivia first.rest) with
        | some (t, rest) =>
          .ok ⟨leaves (trivia ts) ++ first.value.tree :: leaves (trivia first.rest) ++ [.token t],
            rest, by
              have := length_lt_of_expect?_afterTrivia hc
              omega⟩
        | none => .error .unsupported
termination_by ts.length

def delimited (kind : NodeKind) (close : TokenKind) (item : Parser Element) : Parser Tree
  | [] => .error .unsupported
  | t :: ts =>
    match elements close item ts with
    | .error e => .error e
    | .ok p => .ok (p.map (fun trees => .node kind (.token t :: trees)) (Nat.le_succ _))

def arguments (close : TokenKind) (operand : Parser Tree) : Parser Tree :=
  delimited .argumentList close (element .argument (sequence operand))

/-- An expression before anything is applied to it. -/
def primary (operand : Parser Tree) : Parser Tree
  | [] => .error .unsupported
  | t :: ts =>
    let leaf (kind : NodeKind) : Except Refusal (Parsed Tree (ts.length + 1)) :=
      .ok ⟨.node kind [.token t], ts, Nat.lt_succ_self _⟩
    match t.kind with
    | .ident => leaf .identifierExpr
    | .stringLit => leaf .stringLiteralExpr
    | .numberLit => leaf .numberLiteralExpr
    | .trueKw | .falseKw => leaf .booleanLiteralExpr
    | .nilKw => leaf .nilLiteralExpr
    | .dot =>
      match ts with
      | [] => .error .unsupported
      | name :: rest =>
        if isMemberName name then
          .ok ⟨.node .memberAccessExpr [.token t, .token name], rest,
            Nat.lt_succ_of_lt (Nat.lt_succ_self _)⟩
        else .error .unsupported
    | .lBracket =>
      delimited .arrayExpr .rBracket (element .arrayElement (sequence operand)) (t :: ts)
    | .lParen =>
      match arguments .rParen operand (t :: ts) with
      | .error e => .error e
      | .ok p => .ok (p.map (fun list => .node .tupleExpr [list]) (Nat.le_refl _))
    | .lBrace => closure (t :: ts)
    | .operator =>
      if (headKind ts).isTrivia then .error .unsupported
      else
        match operand ts with
        | .error e => .error e
        | .ok p => .ok (p.map (fun value => .node .prefixExpr [.token t, value]) (Nat.le_succ _))
    | _ => .error .unsupported

def member (base : List Tree) : Parser Tree
  | dot :: name :: rest =>
    if isMemberName name then
      .ok ⟨.node .memberAccessExpr (base ++ [.token dot, .token name]), rest,
        Nat.lt_succ_of_lt (Nat.lt_succ_self _)⟩
    else .error .unsupported
  | _ => .error .unsupported

/-- A call of `base`, with the block in braces that may follow on the same line. -/
def call (operand : Parser Tree) (base : List Tree) : Parser Tree := fun ts =>
  match arguments .rParen operand ts with
  | .error e => .error e
  | .ok list =>
    if nextKind list.rest = .lBrace && !newlineAhead list.rest then
      match closure (afterTrivia list.rest) with
      | .error e => .error e
      | .ok block =>
        .ok (block.map
          (fun tree => .node .callExpr (base ++ list.value :: leaves (trivia list.rest) ++ [tree]))
          (Nat.le_trans (length_afterTrivia_le _) (Nat.le_of_lt list.shorter)))
    else .ok (list.map (fun tree => .node .callExpr (base ++ [tree])) (Nat.le_refl _))

/-- What the next tokens apply to `base`: nothing, or a rule to read it with. -/
def application? (operand : Parser Tree) (base : Tree) (ts : List Token) : Option (Parser Tree) :=
  let children := base :: leaves (trivia ts)
  match nextKind ts with
  | .dot => some (member children)
  | .lParen => if newlineAhead ts then none else some (call operand children)
  | .lBracket =>
    if newlineAhead ts then none
    else some fun ts =>
      match arguments .rBracket operand ts with
      | .error e => .error e
      | .ok p => .ok (p.map (fun list => .node .subscriptExpr (children ++ [list])) (Nat.le_refl _))
  | .lBrace =>
    if newlineAhead ts then none
    else some fun ts =>
      match closure ts with
      | .error e => .error e
      | .ok p => .ok (p.map (fun block => .node .callExpr (children ++ [block])) (Nat.le_refl _))
  | _ => none

/-- `base` and all that is applied to it: member accesses, calls, subscripts and blocks. -/
def applications (operand : Parser Tree) (base : Tree) (ts : List Token) :
    Except Refusal (Parsed Tree (ts.length + 1)) :=
  match application? operand base ts with
  | none => .ok ⟨base, ts, Nat.lt_succ_self _⟩
  | some rule =>
    match rule (afterTrivia ts) with
    | .error e => .error e
    | .ok p =>
      have := p.shorter
      have := length_afterTrivia_le ts
      match applications operand p.value p.rest with
      | .error e => .error e
      | .ok more => .ok (more.map id (by omega))
termination_by ts.length

/-- An operand inside which expressions may nest `budget` deep. -/
def operand : (budget : Nat) → Parser Tree
  | 0 => fun ts => .error (.tooDeep ts)
  | budget + 1 => fun ts =>
    match primary (operand budget) ts with
    | .error e => .error e
    | .ok base =>
      match applications (operand budget) base.value base.rest with
      | .error e => .error e
      | .ok p => .ok (p.map id base.shorter)

def expression : Parser Tree := sequence (operand maxNesting)

end PackageManifest.Source
