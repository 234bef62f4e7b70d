import PackageManifest.Proofs.Grammar.Completeness

/-!
# More room for nesting

An expression that nests less than `n` deep nests less than any larger number deep, too, and with
more room a rule gives the answer it gave before, unless it had run out of room. So an expression of
any depth is read back, or refused for its depth and for nothing else (`expression_reads`).
-/

namespace PackageManifest.Proofs.Grammar

open Source

/-! ## Trees -/

section Trees

variable {P Q : Tree → Prop} (hPQ : ∀ {t}, P t → Q t)
include hPQ

theorem Operations.mono {due : Nat} {trees : List Tree} (h : Operations P due trees) :
    Operations Q due trees := by
  induction h with
  | done => exact .done
  | step hbefore hjoins hbehind ht _ ih => exact .step hbefore hjoins hbehind (hPQ ht) ih

theorem Sequence.mono {t : Tree} (h : Sequence P t) : Sequence Q t := by
  cases h with
  | single ht => exact .single (hPQ ht)
  | joined hfirst hne hmore => exact .joined (hPQ hfirst) hne (hmore.mono hPQ)

theorem Element.mono {kind : NodeKind} {separated : Bool} {e : Tree}
    (h : Element P kind separated e) : Element Q kind separated e := by
  cases h with
  | bare hlabel hvalue => exact .bare hlabel (hvalue.mono hPQ)
  | separated hlabel hvalue hbefore hcomma =>
    exact .separated hlabel (hvalue.mono hPQ) hbefore hcomma

theorem Elements.mono {kind : NodeKind} {close : TokenKind} {trees : List Tree}
    (h : Elements P kind close trees) : Elements Q kind close trees := by
  induction h with
  | close hbefore ht => exact .close hbefore ht
  | last hbefore he hbehind ht => exact .last hbefore (he.mono hPQ) hbehind ht
  | next hbefore he _ ih => exact .next hbefore (he.mono hPQ) ih

theorem Delimited.mono {kind item : NodeKind} {opening close : TokenKind} {t : Tree}
    (h : Delimited P kind item opening close t) : Delimited Q kind item opening close t := by
  cases h with
  | intro ht hmore => exact .intro ht (hmore.mono hPQ)

theorem Primary.mono {t : Tree} (h : Primary P t) : Primary Q t := by
  cases h with
  | leaf hkind => exact .leaf hkind
  | member hdot hname => exact .member hdot hname
  | array harray => exact .array (Delimited.mono hPQ harray)
  | tuple hlist => exact .tuple (Delimited.mono hPQ hlist)
  | block hblock => exact .block hblock
  | prefixed hop ht => exact .prefixed hop (hPQ ht)

theorem Application.mono {base t : Tree} (h : Application P base t) : Application Q base t := by
  cases h with
  | member hbefore hdot hname => exact .member hbefore hdot hname
  | call hbefore hline hlist => exact .call hbefore hline (Delimited.mono hPQ hlist)
  | callWithBlock hbefore hline hlist hbetween hsame hblock =>
    exact .callWithBlock hbefore hline (Delimited.mono hPQ hlist) hbetween hsame hblock
  | subscript hbefore hline hlist => exact .subscript hbefore hline (Delimited.mono hPQ hlist)
  | block htakes hbefore hline hblock => exact .block htakes hbefore hline hblock

theorem Chain.mono {t : Tree} (h : Chain P t) : Chain Q t := by
  induction h with
  | primary hprimary => exact .primary (hprimary.mono hPQ)
  | apply _ hsign happly ih => exact .apply ih hsign (happly.mono hPQ)

end Trees

theorem Operand.mono {budget more : Nat} (hle : budget ≤ more) {t : Tree}
    (h : Operand budget t) : Operand more t := by
  induction budget generalizing more t with
  | zero => exact h.elim
  | succ budget ih =>
    cases more with
    | zero => exact absurd hle (Nat.not_succ_le_zero budget)
    | succ more => exact Chain.mono (ih (Nat.le_of_succ_le_succ hle)) h

/-! ## Answers -/

/-- The first answer is that there is no room for nesting any deeper, or it is the second one. -/
def Refines {α : Type} (x y : Except Refusal α) : Prop :=
  (∃ ahead, x = .error (.tooDeep ahead)) ∨ x = y

namespace Refines

variable {α β : Type} {x y : Except Refusal α}

theorem refl (x : Except Refusal α) : Refines x x := .inr rfl

theorem trans {z : Except Refusal α} (h : Refines x y) (h' : Refines y z) : Refines x z := by
  rcases h with h | rfl
  · exact .inl h
  · exact h'

theorem bind {f g : α → Except Refusal β} (h : Refines x y)
    (hfg : ∀ a, x = .ok a → Refines (f a) (g a)) : Refines (x.bind f) (y.bind g) := by
  rcases h with ⟨ahead, rfl⟩ | rfl
  · exact .inl ⟨ahead, rfl⟩
  · cases hx : x with
    | error e => exact refl _
    | ok a => exact hfg a hx

theorem map (h : Refines x y) (f : α → β) : Refines (x.map f) (y.map f) := by
  rcases h with ⟨ahead, rfl⟩ | rfl
  · exact .inl ⟨ahead, rfl⟩
  · exact refl _

end Refines

/-! ## Rules -/

section Rules

variable {operand more : Parser Tree}
  (hop : ∀ ts, Refines (plain (operand ts)) (plain (more ts)))
include hop

theorem operations_refines (due : Nat) (ts : List Token) :
    Refines (plain (operations operand due ts)) (plain (operations more due ts)) := by
  obtain ⟨n, hn⟩ : ∃ n, ts.length = n := ⟨_, rfl⟩
  induction n using Nat.strongRecOn generalizing due ts with
  | ind n ih =>
    cases hts : afterTrivia ts with
    | nil =>
      rw [plain_operations_nil operand hts, plain_operations_nil more hts]
      exact .refl _
    | cons sign after =>
      rw [plain_operations_cons operand hts, plain_operations_cons more hts]
      split
      · refine (hop _).bind fun first hfirst => ?_
        have hlt : first.2.length < n := by
          have := length_lt_of_plain hfirst
          have := length_afterTrivia_le after
          have := length_lt_of_afterTrivia hts
          omega
        exact (ih _ hlt _ _ rfl).map _
      · exact .refl _

theorem sequence_refines (ts : List Token) :
    Refines (plain (sequence operand ts)) (plain (sequence more ts)) := by
  rw [plain_sequence, plain_sequence]
  refine (hop ts).bind fun first _ => ?_
  split
  · exact (operations_refines hop 0 first.2).map _
  · exact .refl _

theorem elements_refines (kind : NodeKind) (close : TokenKind) (ts : List Token) :
    Refines (plain (elements close (element kind (sequence operand)) ts))
      (plain (elements close (element kind (sequence more)) ts)) := by
  have helement (ts : List Token) : Refines (plain (element kind (sequence operand) ts))
      (plain (element kind (sequence more) ts)) := by
    rw [plain_element, plain_element]
    exact (sequence_refines hop _).map _
  obtain ⟨n, hn⟩ : ∃ n, ts.length = n := ⟨_, rfl⟩
  induction n using Nat.strongRecOn generalizing ts with
  | ind n ih =>
    rw [plain_elements, plain_elements]
    split
    · exact .refl _
    · refine (helement _).bind fun first hfirst => ?_
      split
      · have hlt : first.2.length < n := by
          have := length_lt_of_plain hfirst
          have := length_afterTrivia_le ts
          omega
        exact (ih _ hlt _ rfl).map _
      · exact .refl _

theorem delimited_refines (kind item : NodeKind) (close : TokenKind) (ts : List Token) :
    Refines (plain (delimited kind close (element item (sequence operand)) ts))
      (plain (delimited kind close (element item (sequence more)) ts)) := by
  cases ts with
  | nil => exact .refl _
  | cons t ts =>
    rw [plain_delimited, plain_delimited]
    exact (elements_refines hop item close ts).map _

theorem primary_refines (ts : List Token) :
    Refines (plain (primary operand ts)) (plain (primary more ts)) := by
  cases ts with
  | nil => exact .refl _
  | cons t ts =>
    rw [plain_primary, plain_primary]
    split
    · exact .refl _
    · exact delimited_refines hop _ _ _ _
    · exact (delimited_refines hop _ _ _ _).map _
    · exact .refl _
    · split
      · exact .refl _
      · exact (hop ts).map _
    · exact .refl _

theorem call_refines (base : List Tree) (ts : List Token) :
    Refines (plain (call operand base ts)) (plain (call more base ts)) := by
  rw [plain_call, plain_call]
  refine (delimited_refines hop _ _ _ _).bind fun list _ => ?_
  exact .refl _

/-- Whether there is something to apply does not depend on the room for nesting. -/
theorem applied_refines (base : Tree) (ts : List Token) :
    (applied? operand base ts = none ∧ applied? more base ts = none) ∨
      ∃ x y, applied? operand base ts = some x ∧ applied? more base ts = some y ∧
        Refines x y := by
  unfold applied?
  split
  · exact .inr ⟨_, _, rfl, rfl, .refl _⟩
  · split
    · exact .inl ⟨rfl, rfl⟩
    · exact .inr ⟨_, _, rfl, rfl, call_refines hop _ _⟩
  · split
    · exact .inl ⟨rfl, rfl⟩
    · exact .inr ⟨_, _, rfl, rfl, (delimited_refines hop _ _ _ _).map _⟩
  · split
    · exact .inl ⟨rfl, rfl⟩
    · exact .inr ⟨_, _, rfl, rfl, .refl _⟩
  · exact .inl ⟨rfl, rfl⟩

theorem applications_refines (base : Tree) (ts : List Token) :
    Refines (plain (applications operand base ts)) (plain (applications more base ts)) := by
  obtain ⟨n, hn⟩ : ∃ n, ts.length = n := ⟨_, rfl⟩
  induction n using Nat.strongRecOn generalizing base ts with
  | ind n ih =>
    rw [plain_applications, plain_applications]
    rcases applied_refines hop base ts with ⟨hx, hy⟩ | ⟨x, y, hx, hy, hxy⟩
    · rw [hx, hy]
      exact .refl _
    · rw [hx, hy]
      refine hxy.bind fun t ht => ?_
      have hlt : t.2.length < n := by
        rw [applied?_eq_map, ht] at hx
        obtain ⟨rule, _, hrule⟩ := Option.map_eq_some_iff.1 hx
        have := length_lt_of_plain hrule
        have := length_afterTrivia_le ts
        omega
      exact ih _ hlt _ _ rfl

end Rules

theorem operand_refines {budget more : Nat} (hle : budget ≤ more) (ts : List Token) :
    Refines (plain (Source.operand budget ts)) (plain (Source.operand more ts)) := by
  induction budget generalizing more ts with
  | zero => exact .inl ⟨ts, rfl⟩
  | succ budget ih =>
    cases more with
    | zero => exact absurd hle (Nat.not_succ_le_zero budget)
    | succ more =>
      have hop := ih (Nat.le_of_succ_le_succ hle)
      rw [plain_operand, plain_operand]
      exact (primary_refines hop ts).bind fun base _ => applications_refines hop base.1 base.2

/-! ## What is read -/

/-- `x` is the answer `a`, or else one of the refusals `deep`, and that only if `a` may nest deeper
than the limit. -/
def Reads {ε α : Type} (deep : List Token → ε) (budget : Nat) (x : Except ε α) (a : α) : Prop :=
  x = .ok a ∨ maxNesting < budget ∧ ∃ ahead, x = .error (deep ahead)

namespace Reads

variable {ε α β : Type} {deep : List Token → ε} {budget : Nat} {x : Except ε α} {a : α}

theorem eq_ok (h : Reads deep maxNesting x a) : x = .ok a := by
  rcases h with hx | ⟨hlt, _⟩
  · exact hx
  · exact absurd hlt (Nat.lt_irrefl _)

theorem bind (h : Reads deep budget x a) {f : α → Except ε β} {b : β}
    (hf : Reads deep budget (f a) b) : Reads deep budget (x.bind f) b := by
  rcases h with rfl | ⟨hlt, ahead, rfl⟩
  · exact hf
  · exact .inr ⟨hlt, ahead, rfl⟩

theorem map (h : Reads deep budget x a) (f : α → β) : Reads deep budget (x.map f) (f a) := by
  rcases h with rfl | ⟨hlt, ahead, rfl⟩
  · exact .inl rfl
  · exact .inr ⟨hlt, ahead, rfl⟩

end Reads

def tooDeepAt (ahead : List Token) : Trouble := ⟨.tooDeep maxNesting, ahead⟩

/-- An expression is read back however deep it nests, or it is refused for nesting too deep. -/
theorem expression_reads {budget : Nat} {t : Tree} {rest : List Token}
    (h : Sequence (Operand budget) t) (hrest : extendsSequence rest = false) :
    Reads .tooDeep budget (plain (expression (t.tokens ++ rest))) (t, rest) := by
  rcases Nat.lt_or_ge maxNesting budget with hlt | hle
  · have hread := sequence_complete (operand_complete budget) h hrest
    rcases sequence_refines (operand_refines (Nat.le_of_lt hlt)) (t.tokens ++ rest) with hdeep | heq
    · exact .inr ⟨hlt, hdeep⟩
    · exact .inl (heq.trans hread)
  · exact .inl (expression_complete (h.mono (Operand.mono hle)) hrest)

end PackageManifest.Proofs.Grammar
