import PackageManifest.Proofs.Grammar.Budgets
import PackageManifest.Proofs.Grammar.Matching
import PackageManifest.Proofs.Grammar.Statements

/-!
# What is read before a changed value

The value of a binding is replaced by another expression. A rule that starts before the binding's
equals sign does the same on both lists of tokens: it refuses both, or it leaves the same tokens of
what was to be read. Only a block and a type may pass the sign, inside of delimiters, and then they
pass the whole value, in which delimiters match. A new value may nest deeper than the limit, and
then a rule may also refuse it for that.
-/

namespace PackageManifest.Proofs.Grammar

open Source

structure Change where
  sign : Token
  blank : List Token
  old : Tree
  new : Tree
  rest : List Token
  budget : Nat
  equals : sign.kind = .equals
  allTrivia : AllTrivia blank
  oldExpr : Expression old
  newExpr : Sequence (Operand budget) new
  ends : extendsSequence rest = false

namespace Change

variable (c : Change)

def before (ts : List Token) : List Token :=
  ts ++ c.sign :: (c.blank ++ (c.old.tokens ++ c.rest))

def after (ts : List Token) : List Token :=
  ts ++ c.sign :: (c.blank ++ (c.new.tokens ++ c.rest))

/-- Two lists of tokens, one for each value, that are read from the same place. -/
inductive Related : List Token → List Token → Prop
  | ahead (ts : List Token) : Related (c.before ts) (c.after ts)
  | behind {ts : List Token} : ts <:+ c.rest → Related ts ts

variable {c}

theorem sign_not_trivia : c.sign.isTrivia = false := isTrivia_of_kind c.equals rfl

namespace Related

variable {r s : List Token}

/-- Both lists start with the same token. The lists behind it are related as well, unless it is the
sign before the values. -/
theorem split (h : c.Related r s) :
    (r = [] ∧ s = []) ∨ ∃ t r' s', r = t :: r' ∧ s = t :: s' ∧
      (c.Related r' s' ∨ t.kind = .equals ∧ r' = c.blank ++ (c.old.tokens ++ c.rest) ∧
        s' = c.blank ++ (c.new.tokens ++ c.rest)) := by
  cases h with
  | ahead ts =>
    cases ts with
    | nil => exact .inr ⟨c.sign, _, _, rfl, rfl, .inr ⟨c.equals, rfl, rfl⟩⟩
    | cons t ts => exact .inr ⟨t, _, _, rfl, rfl, .inl (.ahead ts)⟩
  | behind hsuffix =>
    cases r with
    | nil => exact .inl ⟨rfl, rfl⟩
    | cons t ts =>
      exact .inr ⟨t, ts, ts, rfl, rfl, .inl (.behind ((List.suffix_cons t ts).trans hsuffix))⟩

theorem view (h : c.Related r s) :
    (r = [] ∧ s = []) ∨ ∃ t r' s', r = t :: r' ∧ s = t :: s' ∧
      (t.kind ≠ .equals → c.Related r' s') := by
  refine h.split.imp id ?_
  rintro ⟨t, r', s', hr, hs, hrel | ⟨hsign, _⟩⟩
  · exact ⟨t, r', s', hr, hs, fun _ => hrel⟩
  · exact ⟨t, r', s', hr, hs, fun hne => absurd hsign hne⟩

theorem skip (h : c.Related r s) :
    trivia r = trivia s ∧ c.Related (afterTrivia r) (afterTrivia s) := by
  cases h with
  | ahead ts =>
    induction ts with
    | nil =>
      have hsign := sign_not_trivia (c := c)
      simp only [before, after, List.nil_append]
      rw [trivia_cons hsign, trivia_cons hsign, afterTrivia_cons hsign, afterTrivia_cons hsign]
      exact ⟨rfl, .ahead []⟩
    | cons t ts ih =>
      change trivia (t :: c.before ts) = trivia (t :: c.after ts) ∧
        c.Related (afterTrivia (t :: c.before ts)) (afterTrivia (t :: c.after ts))
      by_cases ht : t.isTrivia = true
      · have single : AllTrivia [t] := by simpa [AllTrivia] using ht
        have htrivia (us : List Token) : trivia (t :: us) = t :: trivia us :=
          trivia_append single us
        have hafter (us : List Token) : afterTrivia (t :: us) = afterTrivia us :=
          afterTrivia_append single us
        rw [htrivia, htrivia, hafter, hafter, ih.1]
        exact ⟨rfl, ih.2⟩
      · rw [Bool.not_eq_true] at ht
        rw [trivia_cons ht, trivia_cons ht, afterTrivia_cons ht, afterTrivia_cons ht]
        exact ⟨rfl, .ahead (t :: ts)⟩
  | behind hsuffix => exact ⟨rfl, .behind ((List.dropWhile_suffix _).trans hsuffix)⟩

theorem headKind_eq (h : c.Related r s) : headKind r = headKind s := by
  rcases h.view with ⟨rfl, rfl⟩ | ⟨t, r', s', rfl, rfl, _⟩ <;> rfl

theorem nextKind_eq (h : c.Related r s) : nextKind r = nextKind s := h.skip.2.headKind_eq

theorem newlineAhead_eq (h : c.Related r s) : newlineAhead r = newlineAhead s := by
  rw [newlineAhead, newlineAhead, h.skip.1]

/-- A token of a kind that is no equals sign is there in both lists or in none. -/
theorem expect (h : c.Related r s) (kind : TokenKind) (hkind : kind ≠ .equals) :
    (expect? kind r = none ∧ expect? kind s = none) ∨
      ∃ t r' s', expect? kind r = some (t, r') ∧ expect? kind s = some (t, s') ∧
        c.Related r' s' := by
  rcases h.view with ⟨rfl, rfl⟩ | ⟨t, r', s', rfl, rfl, hrel⟩
  · exact .inl ⟨rfl, rfl⟩
  · by_cases ht : t.kind = kind
    · exact .inr ⟨t, r', s', expect?_cons ht r', expect?_cons ht s', hrel (ht ▸ hkind)⟩
    · exact .inl ⟨if_neg ht, if_neg ht⟩

theorem length_ahead (ts : List Token) : c.rest.length < (c.before ts).length := by
  simp only [before, List.length_append, List.length_cons]
  omega

/-- Where the old value is still to be read, the other list is determined. -/
theorem eq_after {ts : List Token} (h : c.Related (c.before ts) s) : s = c.after ts := by
  generalize hr : c.before ts = r at h
  cases h with
  | ahead us =>
    have hts : ts = us := by
      rw [before, before] at hr
      exact List.append_cancel_right hr
    rw [hts]
  | behind hsuffix =>
    have := length_ahead (c := c) ts
    have := hsuffix.length_le
    rw [← hr] at this
    omega

end Related

/-! ## Answers -/

section Answers

variable {α β : Type}

variable (c) in
/-- Two answers of a rule: both refuse, or both leave related tokens. The values are the same as
long as the changed one is still to be read, and later are related by `V`. A new value beyond the
limit may be refused whatever the old answer is. -/
def Alike (V : α → α → Prop) :
    Except Refusal (α × List Token) → Except Refusal (α × List Token) → Prop
  | .ok (a, r), .ok (b, s) => c.Related r s ∧ V a b ∧ (c.rest.length < r.length → a = b)
  | .error .unsupported, .error .unsupported => True
  | .error (.tooDeep _), .error (.tooDeep _) => True
  | _, .error (.tooDeep _) => maxNesting < c.budget
  | _, _ => False

def Any (_ _ : α) : Prop := True

theorem alike_tooDeep {V : α → α → Prop} (h : maxNesting < c.budget)
    (x : Except Refusal (α × List Token)) (ahead : List Token) :
    c.Alike V x (.error (.tooDeep ahead)) := by
  rcases x with (_ | _) | ⟨a, r⟩
  · exact h
  · trivial
  · exact h

theorem Alike.bind {V : α → α → Prop} {W : β → β → Prop}
    {x y : Except Refusal (α × List Token)}
    {f g : α × List Token → Except Refusal (β × List Token)} (h : c.Alike V x y)
    (hfg : ∀ a b r s, x = .ok (a, r) → c.Related r s → V a b →
      (c.rest.length < r.length → a = b) → c.Alike W (f (a, r)) (g (b, s))) :
    c.Alike W (x.bind f) (y.bind g) := by
  match x, y, h with
  | .ok (a, r), .ok (b, s), ⟨hrel, hV, heq⟩ => exact hfg a b r s rfl hrel hV heq
  | .error .unsupported, .error .unsupported, _ => trivial
  | .error (.tooDeep _), .error (.tooDeep _), _ => trivial
  | .ok _, .error (.tooDeep ahead), h => exact alike_tooDeep h _ ahead
  | .error .unsupported, .error (.tooDeep _), h => exact h

theorem Alike.map {V : α → α → Prop} {W : β → β → Prop}
    {x y : Except Refusal (α × List Token)} {f g : α × List Token → β × List Token}
    (h : c.Alike V x y)
    (hfg : ∀ a b r s, x = .ok (a, r) → c.Related r s → V a b →
      (c.rest.length < r.length → a = b) → c.Alike W (.ok (f (a, r))) (.ok (g (b, s)))) :
    c.Alike W (x.map f) (y.map g) := by
  match x, y, h with
  | .ok (a, r), .ok (b, s), ⟨hrel, hV, heq⟩ => exact hfg a b r s rfl hrel hV heq
  | .error .unsupported, .error .unsupported, _ => trivial
  | .error (.tooDeep _), .error (.tooDeep _), _ => trivial
  | .ok _, .error (.tooDeep _), h => exact h
  | .error .unsupported, .error (.tooDeep _), h => exact h

/-- An answer that leaves the changed value to be read is given with the new value, too. -/
theorem Alike.reads {V : α → α → Prop} {x y : Except Refusal (α × List Token)}
    (h : c.Alike V x y) {a : α} {ts : List Token} (hx : x = .ok (a, c.before ts)) :
    Reads .tooDeep c.budget y (a, c.after ts) := by
  subst hx
  match y, h with
  | .ok (b, s), ⟨hrel, _, heq⟩ =>
    rw [hrel.eq_after, heq (Related.length_ahead ts)]
    exact .inl rfl
  | .error (.tooDeep ahead), h => exact .inr ⟨h, ahead, rfl⟩

theorem Alike.refusing_eq_ok {V : α → α → Prop} {x : Except Refusal (α × List Token)}
    {y : Option (α × List Token)} (h : c.Alike V x (refusing y)) {a : α} {ts : List Token}
    (hx : x = .ok (a, c.before ts)) : refusing y = .ok (a, c.after ts) := by
  rcases h.reads hx with hy | ⟨_, ahead, hy⟩
  · exact hy
  · cases y <;> cases hy

theorem Alike.unsupported {V : α → α → Prop} {x y : Except Refusal (α × List Token)}
    (h : c.Alike V x y) (hx : x = .error .unsupported) :
    y = .error .unsupported ∨ maxNesting < c.budget ∧ ∃ ahead, y = .error (.tooDeep ahead) := by
  subst hx
  match y, h with
  | .error .unsupported, _ => exact .inl rfl
  | .error (.tooDeep ahead), h => exact .inr ⟨h, ahead, rfl⟩

end Answers

/-! ## Rules of the expression grammar -/

variable (c) in
/-- A rule answers alike on related lists. -/
def Local {α : Type} (V : α → α → Prop)
    (rule : List Token → Except Refusal (α × List Token)) : Prop :=
  ∀ {r s : List Token}, c.Related r s → c.Alike V (rule r) (rule s)

theorem balanced_alike {due : List TokenKind} (hdue : due ≠ []) :
    c.Local Any fun ts => refusing (plain? (balanced due ts)) := by
  intro r s h
  cases h with
  | ahead ts =>
    induction ts generalizing due with
    | nil =>
      have passed {budget : Nat} {value : Tree} (hvalue : Sequence (Operand budget) value) :
          plain? (balanced due (c.sign :: (c.blank ++ (value.tokens ++ c.rest)))) =
            (plain? (balanced due c.rest)).map fun r =>
              (c.sign :: (c.blank ++ value.tokens) ++ r.1, r.2) := by
        have hsign : Matched [c.sign] := matched_single (by rw [c.equals]; rfl)
        have hmatched : Matched ([c.sign] ++ (c.blank ++ value.tokens)) :=
          hsign.append ((matched_trivia c.allTrivia).append hvalue.operand_matched)
        have hts : c.sign :: (c.blank ++ (value.tokens ++ c.rest)) =
            [c.sign] ++ (c.blank ++ value.tokens) ++ c.rest := by
          simp
        rw [hts]
        exact balanced_matched hmatched hdue c.rest
      simp only [before, after, List.nil_append]
      rw [passed c.oldExpr, passed c.newExpr]
      cases hrest : plain? (balanced due c.rest) with
      | none => trivial
      | some p =>
        obtain ⟨inside, more⟩ := p
        have hsuffix : more <:+ c.rest := ⟨inside, (balanced_sound hrest).2.symm⟩
        refine ⟨.behind hsuffix, trivial, fun hlt => ?_⟩
        have := hsuffix.length_le
        simp only at hlt
        omega
    | cons t ts ih =>
      change c.Alike Any (refusing (plain? (balanced due (t :: c.before ts))))
        (refusing (plain? (balanced due (t :: c.after ts))))
      rw [plain?_balanced, plain?_balanced]
      cases hnext : dueAfter due t.kind with
      | none => trivial
      | some inner =>
        cases inner with
        | nil => exact ⟨.ahead ts, trivial, fun _ => rfl⟩
        | cons close inner =>
          have hmap (us : List Token) :
              refusing ((plain? (balanced (close :: inner) us)).map fun r => (t :: r.1, r.2)) =
                (refusing (plain? (balanced (close :: inner) us))).map fun r =>
                  (t :: r.1, r.2) := by
            cases plain? (balanced (close :: inner) us) <;> rfl
          simp only [hmap]
          refine (ih (List.cons_ne_nil _ _)).map fun a b r s _ hrel _ heq => ?_
          exact ⟨hrel, trivial, fun hlt => congrArg (t :: ·) (heq hlt)⟩
  | behind hsuffix =>
    simp only
    cases hrest : plain? (balanced due r) with
    | none => trivial
    | some p =>
      obtain ⟨inside, more⟩ := p
      have hmore : more <:+ r := ⟨inside, (balanced_sound hrest).2.symm⟩
      exact ⟨.behind (hmore.trans hsuffix), trivial, fun _ => rfl⟩

theorem closure_alike {r s : List Token} (h : c.Related r s) (hkind : headKind r = .lBrace) :
    c.Alike Any (plain (closure r)) (plain (closure s)) := by
  rcases h.view with ⟨rfl, rfl⟩ | ⟨t, r', s', rfl, rfl, hrel⟩
  · cases hkind
  · have ht : t.kind = .lBrace := hkind
    have hclosure (ts : List Token) : plain (closure (t :: ts)) =
        (refusing (plain? (balanced [.rBrace] ts))).map fun r =>
          (.node .closureExpr (leaves (t :: r.1)), r.2) := by
      rw [plain_closure, plain?_balanced, ht]
      simp only [dueAfter, TokenKind.closing?]
      cases plain? (balanced [.rBrace] ts) <;> rfl
    rw [hclosure, hclosure]
    have hinside : c.Alike Any (refusing (plain? (balanced [.rBrace] r')))
        (refusing (plain? (balanced [.rBrace] s'))) :=
      balanced_alike (List.cons_ne_nil _ _) (hrel (by rw [ht]; decide))
    refine hinside.map fun a b r s _ hrel' _ heq => ?_
    exact ⟨hrel', trivial, fun hlt => by simp only [heq hlt]⟩

section Rules

variable {operand : Parser Tree}

theorem operations_alike (hop : c.Local Any fun ts => plain (operand ts)) {due : Nat} :
    c.Local Any fun ts => plain (operations operand due ts) := by
  intro r s h
  induction hn : r.length using Nat.strongRecOn generalizing due r s with
  | ind n ih =>
    obtain ⟨htrivia, hafter⟩ := h.skip
    rcases hafter.view with ⟨hr, hs⟩ | ⟨op, r', s', hr, hs, hrel⟩
    · simp only
      rw [plain_operations_nil operand hr, plain_operations_nil operand hs]
      split
      · exact ⟨h, trivial, fun _ => rfl⟩
      · trivial
    · simp only
      rw [plain_operations_cons operand hr, plain_operations_cons operand hs]
      split
      · rename_i hjoins
        have hne : op.kind ≠ .equals := by
          rcases hjoins with hk | ⟨hk, _⟩ <;> rw [hk] <;> decide
        obtain ⟨htrivia', hafter'⟩ := (hrel hne).skip
        refine (hop hafter').bind fun a b m m' hm hrel' _ heq => ?_
        have hlt : m.length < n := by
          have h1 := length_lt_of_plain hm
          have h2 := length_afterTrivia_le r'
          have h3 := congrArg List.length (eq_of_afterTrivia hr)
          simp only [List.length_append, List.length_cons] at h3
          omega
        refine (ih _ hlt hrel' rfl).map fun a' b' q q' hq hrel'' _ heq' => ?_
        refine ⟨hrel'', trivial, fun hlen => ?_⟩
        have := length_lt_of_plain hq
        simp only at hlen
        simp only [htrivia, htrivia', heq (by omega), heq' hlen]
      · split
        · exact ⟨h, trivial, fun _ => rfl⟩
        · trivial

theorem sequence_alike (hop : c.Local Any fun ts => plain (operand ts)) :
    c.Local Any fun ts => plain (sequence operand ts) := by
  intro r s h
  simp only
  rw [plain_sequence, plain_sequence]
  refine (hop h).bind fun a b m m' hm hrel _ heq => ?_
  simp only [← hrel.nextKind_eq]
  split
  · refine (operations_alike hop hrel).map fun a' b' q q' hq hrel' _ heq' => ?_
    refine ⟨hrel', trivial, fun hlen => ?_⟩
    have := length_lt_of_plain hq
    simp only at hlen
    simp only [heq (by omega), heq' hlen]
  · exact ⟨hrel, trivial, heq⟩

theorem label_alike {r s : List Token} (h : c.Related r s) :
    (label r).1 = (label s).1 ∧ c.Related (label r).2 (label s).2 := by
  rcases h.view with ⟨rfl, rfl⟩ | ⟨name, r', s', rfl, rfl, hrel⟩
  · exact ⟨rfl, h⟩
  · rw [label, label]
    by_cases hname : name.kind.isNameLike = true
    · rw [if_pos hname, if_pos hname]
      have hne : name.kind ≠ .equals := by
        intro heq
        rw [heq] at hname
        cases hname
      obtain ⟨htrivia, hafter⟩ := (hrel hne).skip
      rcases hafter.expect .colon (by decide) with
        ⟨hr, hs⟩ | ⟨colon, r'', s'', hr, hs, hrel'⟩
      · rw [hr, hs]
        exact ⟨rfl, h⟩
      · obtain ⟨htrivia', hafter'⟩ := hrel'.skip
        rw [hr, hs, htrivia]
        simp only [htrivia']
        exact ⟨trivial, hafter'⟩
    · rw [if_neg hname, if_neg hname]
      exact ⟨rfl, h⟩

theorem start_alike (kind : NodeKind) {r s : List Token} (h : c.Related r s) :
    (start kind r).1 = (start kind s).1 ∧ c.Related (start kind r).2 (start kind s).2 := by
  rw [start, start]
  split
  · exact label_alike h
  · exact ⟨rfl, h⟩

def SameEnd (a b : Source.Element) : Prop := a.separated = b.separated

theorem element_alike (hop : c.Local Any fun ts => plain (operand ts)) (kind : NodeKind) :
    c.Local SameEnd fun ts => plain (element kind (sequence operand) ts) := by
  intro r s h
  obtain ⟨hlabel, hrel⟩ := start_alike kind h
  simp only
  rw [plain_element, plain_element]
  refine (sequence_alike hop hrel).map fun a b m m' _ hrel' _ heq => ?_
  obtain ⟨htrivia, hafter⟩ := hrel'.skip
  rcases hafter.expect .comma (by decide) with
    ⟨hr, hs⟩ | ⟨comma, q, q', hr, hs, hrel''⟩
  · simp only [hr, hs]
    exact ⟨hrel', rfl, fun hlen => by simp only [heq hlen, hlabel]⟩
  · simp only [hr, hs]
    refine ⟨hrel'', rfl, fun hlen => ?_⟩
    have := length_lt_of_expect?_afterTrivia hr
    simp only [heq (by omega), hlabel, htrivia]

theorem elements_alike (hop : c.Local Any fun ts => plain (operand ts)) (kind : NodeKind)
    {close : TokenKind} (hclose : close ≠ .equals) :
    c.Local Any fun ts => plain (elements close (element kind (sequence operand)) ts) := by
  intro r s h
  induction hn : r.length using Nat.strongRecOn generalizing r s with
  | ind n ih =>
    obtain ⟨htrivia, hafter⟩ := h.skip
    simp only
    rw [plain_elements, plain_elements]
    rcases hafter.expect close hclose with ⟨hr, hs⟩ | ⟨t, r', s', hr, hs, hrel⟩
    · simp only [hr, hs]
      refine (element_alike hop kind hafter).bind fun a b m m' hm hrel hend heq => ?_
      have hlen : m.length < n := by
        have := length_lt_of_plain hm
        have := length_afterTrivia_le r
        omega
      simp only [show b.separated = a.separated from hend.symm]
      split
      · refine (ih _ hlen hrel rfl).map fun a' b' q q' hq hrel' _ heq' => ?_
        refine ⟨hrel', trivial, fun hlt => ?_⟩
        have := length_lt_of_plain hq
        simp only at hlt
        simp only [htrivia, heq (by omega), heq' hlt]
      · obtain ⟨htrivia', hafter'⟩ := hrel.skip
        rcases hafter'.expect close hclose with ⟨hr', hs'⟩ | ⟨t, q, q', hr', hs', hrel'⟩
        · simp only [hr', hs']
          trivial
        · simp only [hr', hs']
          refine ⟨hrel', trivial, fun hlt => ?_⟩
          have := length_lt_of_expect?_afterTrivia hr'
          simp only [htrivia, htrivia', heq (by omega)]
    · simp only [hr, hs]
      exact ⟨hrel, trivial, fun _ => by simp only [htrivia]⟩

theorem delimited_alike (hop : c.Local Any fun ts => plain (operand ts)) (kind item : NodeKind)
    {close : TokenKind} (hclose : close ≠ .equals) {r s : List Token} (h : c.Related r s)
    (hkind : headKind r ≠ .equals) :
    c.Alike Any (plain (delimited kind close (element item (sequence operand)) r))
      (plain (delimited kind close (element item (sequence operand)) s)) := by
  rcases h.view with ⟨rfl, rfl⟩ | ⟨t, r', s', rfl, rfl, hrel⟩
  · trivial
  · rw [plain_delimited, plain_delimited]
    refine (elements_alike hop item hclose (hrel hkind)).map fun a b m m' _ hrel' _ heq => ?_
    exact ⟨hrel', trivial, fun hlt => by simp only [heq hlt]⟩

theorem primary_alike (hop : c.Local Any fun ts => plain (operand ts)) :
    c.Local Any fun ts => plain (primary operand ts) := by
  intro r s h
  rcases h.view with ⟨rfl, rfl⟩ | ⟨t, r', s', rfl, rfl, hrel⟩
  · trivial
  · simp only
    rw [plain_primary, plain_primary]
    have hne {kind : TokenKind} (hkind : t.kind = kind) (hk : kind ≠ .equals) :
        c.Related r' s' := hrel (hkind ▸ hk)
    split
    · rename_i hkind
      rcases (hne hkind (by decide)).view with ⟨rfl, rfl⟩ | ⟨name, r'', s'', rfl, rfl, hrel'⟩
      · trivial
      · simp only
        split
        · rename_i hname
          refine ⟨hrel' fun heq => ?_, trivial, fun _ => rfl⟩
          rw [isMemberName, heq] at hname
          cases hname
        · trivial
    · rename_i hkind
      refine delimited_alike hop _ _ (by decide) h ?_
      rw [headKind, hkind]
      decide
    · rename_i hkind
      have hhead : headKind (t :: r') ≠ .equals := by
        rw [headKind, hkind]
        decide
      refine (delimited_alike hop _ _ (by decide) h hhead).map fun a b m m' _ hrel' _ heq => ?_
      exact ⟨hrel', trivial, fun hlt => by simp only [heq hlt]⟩
    · rename_i hkind
      exact closure_alike h hkind
    · rename_i hkind
      have hrel' := hne hkind (by decide)
      rw [← hrel'.headKind_eq]
      split
      · trivial
      · refine (hop hrel').map fun a b m m' _ hrel'' _ heq => ?_
        exact ⟨hrel'', trivial, fun hlt => by simp only [heq hlt]⟩
    · split
      · rename_i leaf hleaf
        refine ⟨hrel fun heq => ?_, trivial, fun _ => rfl⟩
        rw [heq] at hleaf
        cases hleaf
      · trivial

theorem member_alike {base base' : List Tree} {r s : List Token} (h : c.Related r s)
    (hkind : headKind r = .dot) (hbase : c.rest.length < r.length → base = base') :
    c.Alike Any (plain (member base r)) (plain (member base' s)) := by
  rcases h.view with ⟨rfl, rfl⟩ | ⟨dot, r', s', rfl, rfl, hrel⟩
  · cases hkind
  · have hdot : dot.kind ≠ .equals := by
      rw [show dot.kind = .dot from hkind]
      decide
    rcases (hrel hdot).view with ⟨rfl, rfl⟩ | ⟨name, r'', s'', rfl, rfl, hrel'⟩
    · trivial
    · rw [plain_member, plain_member]
      split
      · rename_i hname
        refine ⟨hrel' fun heq => ?_, trivial, fun hlt => ?_⟩
        · rw [isMemberName, heq] at hname
          cases hname
        · rw [hbase (by simp only [List.length_cons] at *; omega)]
      · trivial

theorem call_alike (hop : c.Local Any fun ts => plain (operand ts)) {base base' : List Tree}
    {r s : List Token} (h : c.Related r s) (hkind : headKind r = .lParen)
    (hbase : c.rest.length < r.length → base = base') :
    c.Alike Any (plain (call operand base r)) (plain (call operand base' s)) := by
  rw [plain_call, plain_call]
  have hhead : headKind r ≠ .equals := by
    rw [hkind]
    decide
  refine (delimited_alike hop _ _ (by decide) h hhead).bind fun a b m m' hm hrel _ heq => ?_
  have hlen := length_lt_of_plain hm
  simp only [← hrel.nextKind_eq, ← hrel.newlineAhead_eq]
  split
  · rename_i hbrace
    simp only [Bool.and_eq_true, decide_eq_true_eq] at hbrace
    obtain ⟨htrivia, hafter⟩ := hrel.skip
    refine (closure_alike hafter hbrace.1).map fun a' b' q q' hq hrel' _ heq' => ?_
    refine ⟨hrel', trivial, fun hlt => ?_⟩
    have := length_lt_of_plain hq
    have := length_afterTrivia_le m
    simp only at hlt
    simp only [heq (by omega), heq' hlt, hbase (by omega), htrivia]
  · exact ⟨hrel, trivial, fun hlt => by simp only [heq hlt, hbase (by omega)]⟩

theorem applied_alike (hop : c.Local Any fun ts => plain (operand ts)) {base base' : Tree}
    {r s : List Token} (h : c.Related r s) (hbase : c.rest.length < r.length → base = base') :
    (applied? operand base r = none ∧ applied? operand base' s = none) ∨
      ∃ x y, applied? operand base r = some x ∧ applied? operand base' s = some y ∧
        c.Alike Any x y := by
  obtain ⟨htrivia, hafter⟩ := h.skip
  have hle := length_afterTrivia_le r
  have hchildren : c.rest.length < (afterTrivia r).length →
      base :: leaves (trivia r) = base' :: leaves (trivia s) := by
    intro hlt
    rw [hbase (by omega), htrivia]
  simp only [applied?, ← h.nextKind_eq, ← h.newlineAhead_eq]
  split
  · rename_i hkind
    exact .inr ⟨_, _, rfl, rfl, member_alike hafter hkind hchildren⟩
  · rename_i hkind
    split
    · exact .inl ⟨rfl, rfl⟩
    · exact .inr ⟨_, _, rfl, rfl, call_alike hop hafter hkind hchildren⟩
  · rename_i hkind
    split
    · exact .inl ⟨rfl, rfl⟩
    · refine .inr ⟨_, _, rfl, rfl, ?_⟩
      have hhead : headKind (afterTrivia r) ≠ .equals := by
        rw [show headKind (afterTrivia r) = .lBracket from hkind]
        decide
      refine (delimited_alike hop _ _ (by decide) hafter hhead).map
        fun a b m m' hm hrel _ heq => ?_
      have := length_lt_of_plain hm
      exact ⟨hrel, trivial, fun hlt => by
        simp only at hlt
        simp only [heq hlt, hchildren (by omega)]⟩
  · rename_i hkind
    split
    · exact .inl ⟨rfl, rfl⟩
    · refine .inr ⟨_, _, rfl, rfl, ?_⟩
      refine (closure_alike hafter hkind).map fun a b m m' hm hrel _ heq => ?_
      have := length_lt_of_plain hm
      exact ⟨hrel, trivial, fun hlt => by
        simp only at hlt
        simp only [heq hlt, hchildren (by omega)]⟩
  · exact .inl ⟨rfl, rfl⟩

theorem length_lt_of_applied? {base t : Tree} {r m : List Token}
    (h : applied? operand base r = some (.ok (t, m))) : m.length < r.length := by
  rw [applied?_eq_map] at h
  obtain ⟨rule, _, hrule⟩ := Option.map_eq_some_iff.1 h
  have := length_lt_of_plain hrule
  have := length_afterTrivia_le r
  omega

theorem applications_alike (hop : c.Local Any fun ts => plain (operand ts)) {base base' : Tree}
    {r s : List Token} (h : c.Related r s) (hbase : c.rest.length < r.length → base = base') :
    c.Alike Any (plain (applications operand base r)) (plain (applications operand base' s)) := by
  obtain ⟨n, hn⟩ : ∃ n, r.length = n := ⟨_, rfl⟩
  induction n using Nat.strongRecOn generalizing r s base base' with
  | ind n ih =>
    rw [plain_applications, plain_applications]
    rcases applied_alike hop h hbase with ⟨hx, hy⟩ | ⟨x, y, hx, hy, hxy⟩
    · rw [hx, hy]
      exact ⟨h, trivial, hbase⟩
    · rw [hx, hy]
      simp only
      refine hxy.bind fun a b m m' hm hrel _ heq => ?_
      have hlt : m.length < r.length := length_lt_of_applied? (hx.trans (congrArg some hm))
      exact ih m.length (by omega) hrel heq rfl

end Rules

theorem operand_alike (budget : Nat) : c.Local Any fun ts => plain (Source.operand budget ts) := by
  induction budget with
  | zero =>
    intro r s _
    trivial
  | succ budget ih =>
    intro r s h
    simp only
    rw [plain_operand, plain_operand]
    refine (primary_alike ih h).bind fun a b m m' hm hrel _ heq => ?_
    exact applications_alike ih hrel heq

theorem expression_alike : c.Local Any fun ts => plain (expression ts) :=
  sequence_alike (operand_alike maxNesting)

end Change

end PackageManifest.Proofs.Grammar
