import PackageManifest.Source.Tree

/-!
# Reading a list of tokens

The tokens still to be read are the only state of the grammar. Trivia before a token is skipped to
look ahead, and is taken along by whoever takes the token.
-/

namespace PackageManifest.Source

def trivia (ts : List Token) : List Token := ts.takeWhile Token.isTrivia

def afterTrivia (ts : List Token) : List Token := ts.dropWhile Token.isTrivia

theorem trivia_append_afterTrivia (ts : List Token) : trivia ts ++ afterTrivia ts = ts :=
  List.takeWhile_append_dropWhile

theorem length_le_succ (ts : List Token) : ts.length ≤ ts.length + 1 := Nat.le_succ _

theorem length_lt_succ (ts : List Token) : ts.length < ts.length + 1 := Nat.lt_succ_self _

theorem succ_le_succ_of_lt {rest ts : List Token} (h : rest.length < ts.length) :
    rest.length + 1 ≤ ts.length + 1 := Nat.succ_le_succ (Nat.le_of_lt h)

theorem length_afterTrivia_le (ts : List Token) : (afterTrivia ts).length ≤ ts.length :=
  (List.dropWhile_suffix _).length_le

theorem length_lt_of_afterTrivia {t : Token} {ts rest : List Token}
    (h : afterTrivia ts = t :: rest) : rest.length < ts.length := by
  have := length_afterTrivia_le ts
  rw [h] at this
  exact this

def headKind : List Token → TokenKind
  | [] => .eof
  | t :: _ => t.kind

def nextKind (ts : List Token) : TokenKind := headKind (afterTrivia ts)

def Token.breaksLine (t : Token) : Bool := t.kind == .newline || t.text.contains '\n'

def newlineAhead (ts : List Token) : Bool := (trivia ts).any Token.breaksLine

def expect? (kind : TokenKind) : List Token → Option (Token × List Token)
  | [] => none
  | t :: ts => if t.kind = kind then some (t, ts) else none

theorem expect?_eq_some {kind : TokenKind} {ts rest : List Token} {t : Token}
    (h : expect? kind ts = some (t, rest)) : ts = t :: rest ∧ t.kind = kind := by
  cases ts with
  | nil => simp [expect?] at h
  | cons u us =>
    simp only [expect?, Option.ite_none_right_eq_some, Option.some.injEq, Prod.mk.injEq] at h
    obtain ⟨hk, rfl, rfl⟩ := h
    exact ⟨rfl, hk⟩

theorem length_lt_of_expect? {kind : TokenKind} {ts rest : List Token} {t : Token}
    (h : expect? kind ts = some (t, rest)) : rest.length < ts.length := by
  rw [(expect?_eq_some h).1]
  exact Nat.lt_succ_self _

theorem length_lt_of_expect?_afterTrivia {kind : TokenKind} {ts rest : List Token} {t : Token}
    (h : expect? kind (afterTrivia ts) = some (t, rest)) : rest.length < ts.length :=
  Nat.lt_of_lt_of_le (length_lt_of_expect? h) (length_afterTrivia_le ts)

def leaves (ts : List Token) : List Tree := ts.map .token

@[simp] theorem tokensList_leaves (ts : List Token) : Tree.tokensList (leaves ts) = ts :=
  Tree.tokensList_map_token ts

/-- Something read from a list of tokens, and fewer than `bound` tokens still to be read. -/
structure Parsed (α : Type) (bound : Nat) where
  value : α
  rest : List Token
  shorter : rest.length < bound

namespace Parsed

def map {α β : Type} {n m : Nat} (f : α → β) (h : n ≤ m) (p : Parsed α n) : Parsed β m :=
  ⟨f p.value, p.rest, Nat.lt_of_lt_of_le p.shorter h⟩

end Parsed

/-- Why the structured grammar does not take what is ahead: it has no rule for it, or the rules nest
too deeply at some place. -/
inductive Refusal where
  | unsupported
  | tooDeep (ahead : List Token)
  deriving DecidableEq, Repr

abbrev Parser (α : Type) := (ts : List Token) → Except Refusal (Parsed α ts.length)

/-- The closing delimiters that are due after a token, the next one first, if it may stand where
`due` are due. -/
def dueAfter (due : List TokenKind) (kind : TokenKind) : Option (List TokenKind) :=
  match kind.closing? with
  | some close => some (close :: due)
  | none =>
    if kind.isClosing then
      match due with
      | [] => none
      | close :: due => if close = kind then some due else none
    else some due

end PackageManifest.Source
