import PackageManifest.Source.Statement

/-!
# What a rule reads

`plain` is the answer of a rule together with the tokens it leaves, and every rule of the
expression grammar has one equation for it. The lemmas on trivia let a rule be followed over a list
of tokens that is written as trivia, a significant token and a rest.
-/

namespace PackageManifest.Proofs.Grammar

open Source

/-- What a rule answers and leaves, without the proof that it has consumed something. -/
def plain {ε α : Type} {n : Nat} (result : Except ε (Parsed α n)) : Except ε (α × List Token) :=
  result.map fun p => (p.value, p.rest)

def plain? {α : Type} {n : Nat} (result : Option (Parsed α n)) : Option (α × List Token) :=
  result.map fun p => (p.value, p.rest)

section Results

variable {ε α β : Type} {n m : Nat}

@[simp] theorem plain_ok (p : Parsed α n) :
    plain (.ok p : Except ε (Parsed α n)) = .ok (p.value, p.rest) := rfl

@[simp] theorem plain_error (e : ε) :
    plain (.error e : Except ε (Parsed α n)) = .error e := rfl

@[simp] theorem plain?_some (p : Parsed α n) : plain? (some p) = some (p.value, p.rest) := rfl

@[simp] theorem plain?_none : plain? (none : Option (Parsed α n)) = none := rfl

@[simp] theorem map_value (f : α → β) (h : n ≤ m) (p : Parsed α n) :
    (p.map f h).value = f p.value := rfl

@[simp] theorem map_rest (f : α → β) (h : n ≤ m) (p : Parsed α n) :
    (p.map f h).rest = p.rest := rfl

theorem plain?_map (f : α → β) (h : n ≤ m) (result : Option (Parsed α n)) :
    plain? (result.map (Parsed.map f h)) = (plain? result).map fun r => (f r.1, r.2) := by
  cases result <;> rfl

theorem length_lt_of_plain {result : Except ε (Parsed α n)} {a : α} {rest : List Token}
    (h : plain result = .ok (a, rest)) : rest.length < n := by
  cases result with
  | error e => cases h
  | ok p =>
    cases h
    exact p.shorter

theorem length_lt_of_plain? {result : Option (Parsed α n)} {a : α} {rest : List Token}
    (h : plain? result = some (a, rest)) : rest.length < n := by
  cases result with
  | none => cases h
  | some p =>
    cases h
    exact p.shorter

theorem bind_eq_ok {x : Except ε α} {f : α → Except ε β} {b : β} :
    x.bind f = .ok b ↔ ∃ a, x = .ok a ∧ f a = .ok b := by
  cases x <;> simp [Except.bind]

theorem map_eq_ok {x : Except ε α} {f : α → β} {b : β} :
    x.map f = .ok b ↔ ∃ a, x = .ok a ∧ f a = b := by
  cases x <;> simp [Except.map]

theorem bind_eq_error {x : Except ε α} {f : α → Except ε β} {e : ε} :
    x.bind f = .error e ↔ x = .error e ∨ ∃ a, x = .ok a ∧ f a = .error e := by
  cases x <;> simp [Except.bind]

theorem error_of_map {x : Except ε α} {f : α → β} {e : ε} (h : x.map f = .error e) :
    x = .error e := by
  cases x with
  | error e => exact congrArg Except.error (Except.error.inj h)
  | ok a => cases h

end Results

/-! ## Trivia before a token -/

def AllTrivia (ts : List Token) : Prop := ∀ t ∈ ts, t.isTrivia = true

theorem allTrivia_nil : AllTrivia [] := by
  intro t ht
  cases ht

theorem allTrivia_trivia (ts : List Token) : AllTrivia (trivia ts) := by
  intro t ht
  exact List.all_eq_true.1 (List.all_takeWhile (l := ts) (p := Token.isTrivia)) t ht

theorem AllTrivia.append {us vs : List Token} (hu : AllTrivia us) (hv : AllTrivia vs) :
    AllTrivia (us ++ vs) := by
  intro t ht
  rcases List.mem_append.1 ht with h | h
  · exact hu t h
  · exact hv t h

theorem AllTrivia.tail {t : Token} {ts : List Token} (h : AllTrivia (t :: ts)) :
    AllTrivia ts := fun u hu => h u (List.mem_cons_of_mem t hu)

theorem afterTrivia_append {tr : List Token} (htr : AllTrivia tr) (ts : List Token) :
    afterTrivia (tr ++ ts) = afterTrivia ts := by
  induction tr with
  | nil => rfl
  | cons t tr ih =>
    have ht : t.isTrivia = true := htr t (by simp)
    rw [afterTrivia, List.cons_append, List.dropWhile_cons_of_pos ht]
    exact ih htr.tail

theorem trivia_append {tr : List Token} (htr : AllTrivia tr) (ts : List Token) :
    trivia (tr ++ ts) = tr ++ trivia ts := by
  induction tr with
  | nil => rfl
  | cons t tr ih =>
    have ht : t.isTrivia = true := htr t (by simp)
    rw [trivia, List.cons_append, List.takeWhile_cons_of_pos ht]
    exact congrArg (t :: ·) (ih htr.tail)

theorem afterTrivia_cons {t : Token} (ht : t.isTrivia = false) (ts : List Token) :
    afterTrivia (t :: ts) = t :: ts := by
  simp [afterTrivia, ht]

theorem trivia_cons {t : Token} (ht : t.isTrivia = false) (ts : List Token) :
    trivia (t :: ts) = [] := by
  simp [trivia, ht]

theorem nextKind_cons {t : Token} (ht : t.isTrivia = false) (ts : List Token) :
    nextKind (t :: ts) = t.kind := by
  rw [nextKind, afterTrivia_cons ht, headKind]

theorem nextKind_append {tr : List Token} (htr : AllTrivia tr) (ts : List Token) :
    nextKind (tr ++ ts) = nextKind ts := by
  rw [nextKind, nextKind, afterTrivia_append htr]

theorem isTrivia_of_afterTrivia {ts rest : List Token} {t : Token}
    (h : afterTrivia ts = t :: rest) : t.isTrivia = false := by
  have hne : ts.dropWhile Token.isTrivia ≠ [] := by
    change afterTrivia ts ≠ []
    simp [h]
  have hhead := List.head_dropWhile_not Token.isTrivia hne
  change ((afterTrivia ts).head hne).isTrivia = false at hhead
  simpa only [h, List.head_cons] using hhead

theorem eq_of_afterTrivia {ts rest : List Token} (h : afterTrivia ts = rest) :
    ts = trivia ts ++ rest := by
  rw [← h, trivia_append_afterTrivia]

theorem isTrivia_of_kind {t : Token} {kind : TokenKind} (h : t.kind = kind)
    (hk : kind.isTrivia = false) : t.isTrivia = false := by
  rw [Token.isTrivia, h, hk]

theorem expect?_cons {t : Token} {kind : TokenKind} (h : t.kind = kind) (ts : List Token) :
    expect? kind (t :: ts) = some (t, ts) := by
  simp [expect?, h]

theorem expect?_eq_none_of_headKind {kind : TokenKind} {ts : List Token}
    (h : headKind ts ≠ kind) : expect? kind ts = none := by
  cases ts with
  | nil => rfl
  | cons t ts => exact if_neg h

theorem expect?_afterTrivia_eq_none {kind : TokenKind} {ts : List Token}
    (h : nextKind ts ≠ kind) : expect? kind (afterTrivia ts) = none :=
  expect?_eq_none_of_headKind h

theorem nextKind_of_expect?_eq_none {kind : TokenKind} {ts : List Token} (hk : kind ≠ .eof)
    (h : expect? kind (afterTrivia ts) = none) : nextKind ts ≠ kind := by
  unfold nextKind
  cases hts : afterTrivia ts with
  | nil => simpa [headKind] using hk.symm
  | cons t rest =>
    intro heq
    rw [hts, expect?_cons heq] at h
    cases h

/-! ## The rules, one equation each -/

/-- Whether a token joins two operands where `due` colons are due. -/
def Joins (op : Token) (due : Nat) : Prop :=
  op.kind = .operator ∨ (op.kind = .colon ∧ 0 < due)

instance (op : Token) (due : Nat) : Decidable (Joins op due) :=
  inferInstanceAs (Decidable (_ ∨ _))

def dueBehind (op : Token) (due : Nat) : Nat :=
  if op.kind = .colon then due - 1
  else if op.text = ['?'] then due + 1
  else due

section Rules

variable (operand : Parser Tree)

theorem plain?_balanced (due : List TokenKind) (t : Token) (ts : List Token) :
    plain? (balanced due (t :: ts)) =
      match dueAfter due t.kind with
      | none => none
      | some [] => some ([t], ts)
      | some (close :: due) =>
        (plain? (balanced (close :: due) ts)).map fun r => (t :: r.1, r.2) := by
  rw [balanced]
  split <;> simp_all [plain?_map]

theorem plain_closure (ts : List Token) :
    plain (closure ts) =
      match plain? (balanced [] ts) with
      | none => .error .unsupported
      | some r => .ok (.node .closureExpr (leaves r.1), r.2) := by
  unfold Source.closure
  split <;> simp_all

theorem plain_operations_nil {due : Nat} {ts : List Token} (h : afterTrivia ts = []) :
    plain (operations operand due ts) =
      if due = 0 then .ok ([], ts) else .error .unsupported := by
  unfold operations
  split
  · split <;> simp_all
  · simp_all

theorem plain_operations_cons {due : Nat} {ts after : List Token} {op : Token}
    (h : afterTrivia ts = op :: after) :
    plain (operations operand due ts) =
      if Joins op due then
        (plain (operand (afterTrivia after))).bind fun r =>
          (plain (operations operand (dueBehind op due) r.2)).map fun m =>
            (leaves (trivia ts) ++ .token op :: leaves (trivia after) ++ r.1 :: m.1, m.2)
      else if due = 0 then .ok ([], ts)
      else .error .unsupported := by
  rw [operations]
  split
  · simp_all
  · rename_i op' after' h'
    obtain ⟨rfl, rfl⟩ := List.cons.inj (h'.symm.trans h)
    by_cases hjoins : Joins op' due
    · rw [if_pos hjoins]
      unfold Joins at hjoins
      rw [if_pos hjoins]
      cases operand (afterTrivia after') with
      | error e => rfl
      | ok p =>
        have hdue : (if op'.kind = .colon then due - 1 else if op'.text = ['?'] then due + 1
          else due) = dueBehind op' due := rfl
        simp only [hdue]
        cases hmore : operations operand (dueBehind op' due) p.rest with
        | error e => simp only [plain_ok, plain_error, Except.bind, hmore, Except.map]
        | ok more => simp only [plain_ok, Except.bind, hmore, Except.map, map_value, map_rest]
    · rw [if_neg hjoins]
      unfold Joins at hjoins
      rw [if_neg hjoins]
      split <;> rfl

theorem plain_sequence (ts : List Token) :
    plain (sequence operand ts) =
      (plain (operand ts)).bind fun first =>
        if nextKind first.2 = .operator then
          (plain (operations operand 0 first.2)).map fun m =>
            (.node .sequenceExpr (first.1 :: m.1), m.2)
        else .ok first := by
  unfold Source.sequence
  cases operand ts with
  | error e => rfl
  | ok first =>
    simp only [plain_ok, Except.bind]
    split
    · split <;> simp_all [Except.map]
    · rfl

/-- What stands before the value of an element, and the tokens behind that. -/
def start (kind : NodeKind) (ts : List Token) : List Token × List Token :=
  if kind = .argument then label ts else ([], ts)

theorem plain_element (kind : NodeKind) (expr : Parser Tree) (ts : List Token) :
    plain (element kind expr ts) =
      (plain (expr (start kind ts).2)).map fun value =>
        match expect? .comma (afterTrivia value.2) with
        | some (comma, rest) =>
          (⟨.node kind (leaves (start kind ts).1 ++ value.1 :: leaves (trivia value.2) ++
            [.token comma]), true⟩, rest)
        | none => (⟨.node kind (leaves (start kind ts).1 ++ [value.1]), false⟩, value.2) := by
  rw [element, start]
  split
  · rename_i e he
    rw [he]
    rfl
  · rename_i value hvalue
    rw [hvalue]
    simp only [plain_ok, Except.map]
    split <;> simp_all

theorem plain_elements (close : TokenKind) (item : Parser Element) (ts : List Token) :
    plain (elements close item ts) =
      match expect? close (afterTrivia ts) with
      | some (t, rest) => .ok (leaves (trivia ts) ++ [.token t], rest)
      | none =>
        (plain (item (afterTrivia ts))).bind fun first =>
          if first.1.separated then
            (plain (elements close item first.2)).map fun more =>
              (leaves (trivia ts) ++ first.1.tree :: more.1, more.2)
          else
            match expect? close (afterTrivia first.2) with
            | some (t, rest) =>
              .ok (leaves (trivia ts) ++ first.1.tree :: leaves (trivia first.2) ++ [.token t],
                rest)
            | none => .error .unsupported := by
  rw [elements]
  split
  · rename_i h
    simp [h]
  · rename_i h
    simp only [h]
    cases item (afterTrivia ts) with
    | error e => rfl
    | ok first =>
      simp only [plain_ok, Except.bind]
      split
      · cases elements close item first.rest <;> rfl
      · split <;> simp_all

theorem plain_delimited (kind : NodeKind) (close : TokenKind) (item : Parser Element) (t : Token)
    (ts : List Token) :
    plain (delimited kind close item (t :: ts)) =
      (plain (elements close item ts)).map fun r => (.node kind (.token t :: r.1), r.2) := by
  rw [delimited]
  cases elements close item ts <;> rfl

def leafKind? : TokenKind → Option NodeKind
  | .ident => some .identifierExpr
  | .stringLit => some .stringLiteralExpr
  | .numberLit => some .numberLiteralExpr
  | .trueKw | .falseKw => some .booleanLiteralExpr
  | .nilKw => some .nilLiteralExpr
  | _ => none

theorem plain_primary (t : Token) (ts : List Token) :
    plain (primary operand (t :: ts)) =
      match t.kind with
      | .dot =>
        match ts with
        | [] => .error .unsupported
        | name :: rest =>
          if isMemberName name then .ok (.node .memberAccessExpr [.token t, .token name], rest)
          else .error .unsupported
      | .lBracket =>
        plain (delimited .arrayExpr .rBracket (element .arrayElement (sequence operand)) (t :: ts))
      | .lParen =>
        (plain (arguments .rParen operand (t :: ts))).map fun r => (.node .tupleExpr [r.1], r.2)
      | .lBrace => plain (closure (t :: ts))
      | .operator =>
        if (headKind ts).isTrivia then .error .unsupported
        else (plain (operand ts)).map fun r => (.node .prefixExpr [.token t, r.1], r.2)
      | kind =>
        match leafKind? kind with
        | some leaf => .ok (.node leaf [.token t], ts)
        | none => .error .unsupported := by
  simp only [primary.eq_def]
  cases hkind : t.kind <;> try rfl
  case dot =>
    cases ts with
    | nil => rfl
    | cons name rest => by_cases hname : isMemberName name = true <;> simp [hname]
  case lParen => cases arguments .rParen operand (t :: ts) <;> rfl
  case operator =>
    by_cases htrivia : (headKind ts).isTrivia = true
    · simp [htrivia]
    · simp only [htrivia, if_false, Bool.false_eq_true]
      cases operand ts <;> rfl

theorem plain_member (base : List Tree) (dot name : Token) (rest : List Token) :
    plain (member base (dot :: name :: rest)) =
      if isMemberName name then
        .ok (.node .memberAccessExpr (base ++ [.token dot, .token name]), rest)
      else .error .unsupported := by
  rw [member]
  split <;> rfl

theorem plain_call (base : List Tree) (ts : List Token) :
    plain (call operand base ts) =
      (plain (arguments .rParen operand ts)).bind fun list =>
        if nextKind list.2 = .lBrace && !newlineAhead list.2 then
          (plain (closure (afterTrivia list.2))).map fun block =>
            (.node .callExpr (base ++ list.1 :: leaves (trivia list.2) ++ [block.1]), block.2)
        else .ok (.node .callExpr (base ++ [list.1]), list.2) := by
  unfold call
  cases arguments .rParen operand ts with
  | error e => rfl
  | ok list =>
    simp only [plain_ok, Except.bind]
    split
    · cases closure (afterTrivia list.rest) <;> rfl
    · rfl

/-- What the next tokens apply to `base`, if anything: the kind of the next token decides. -/
def applied? (base : Tree) (ts : List Token) : Option (Except Refusal (Tree × List Token)) :=
  let children := base :: leaves (trivia ts)
  match nextKind ts with
  | .dot => some (plain (member children (afterTrivia ts)))
  | .lParen =>
    if newlineAhead ts then none else some (plain (call operand children (afterTrivia ts)))
  | .lBracket =>
    if newlineAhead ts then none
    else some ((plain (arguments .rBracket operand (afterTrivia ts))).map fun list =>
      (.node .subscriptExpr (children ++ [list.1]), list.2))
  | .lBrace =>
    if newlineAhead ts then none
    else some ((plain (closure (afterTrivia ts))).map fun block =>
      (.node .callExpr (children ++ [block.1]), block.2))
  | _ => none

theorem applied?_eq_map (base : Tree) (ts : List Token) :
    applied? operand base ts =
      (application? operand base ts).map fun rule => plain (rule (afterTrivia ts)) := by
  simp only [applied?, application?]
  cases hnext : nextKind ts <;> simp only [Option.map_none, Option.map_some]
  case lParen => cases newlineAhead ts <;> rfl
  case lBracket =>
    cases newlineAhead ts with
    | true => rfl
    | false =>
      simp only [Bool.false_eq_true, if_false, Option.map_some]
      cases arguments .rBracket operand (afterTrivia ts) <;> rfl
  case lBrace =>
    cases newlineAhead ts with
    | true => rfl
    | false =>
      simp only [Bool.false_eq_true, if_false, Option.map_some]
      cases closure (afterTrivia ts) <;> rfl

theorem plain_applications (base : Tree) (ts : List Token) :
    plain (applications operand base ts) =
      match applied? operand base ts with
      | none => .ok (base, ts)
      | some result => result.bind fun r => plain (applications operand r.1 r.2) := by
  rw [applications, applied?_eq_map]
  cases application? operand base ts with
  | none => rfl
  | some rule =>
    simp only [Option.map_some]
    cases rule (afterTrivia ts) with
    | error e => rfl
    | ok p =>
      simp only [plain_ok, Except.bind]
      cases applications operand p.value p.rest <;> rfl

theorem plain_operand (budget : Nat) (ts : List Token) :
    plain (Source.operand (budget + 1) ts) =
      (plain (primary (Source.operand budget) ts)).bind fun base =>
        plain (applications (Source.operand budget) base.1 base.2) := by
  simp only [Source.operand]
  cases primary (Source.operand budget) ts with
  | error e => rfl
  | ok base =>
    simp only [plain_ok, Except.bind]
    cases applications (Source.operand budget) base.value base.rest <;> rfl

end Rules

end PackageManifest.Proofs.Grammar
