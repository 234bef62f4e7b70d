import PackageManifest.Proofs.Grammar.Locality

/-!
# A manifest with another value for one binding

Main statement: `items_rebind`. If the children of a manifest were read and one of them is a
binding, then with another expression for its value they are read again, unless that expression
nests too deep: what comes before the binding is taken for the same items, and what comes behind it
was not changed.
-/

namespace PackageManifest.Proofs.Grammar

open Source

/-! ## Types -/

theorem depthBehind_of_isTrivia {kind : TokenKind} (h : kind.isTrivia = true) (depth : Nat) :
    depthBehind kind depth = depth := by
  cases kind <;> first | rfl | cases h

/-- Inside of delimiters, a type goes on token by token. -/
theorem plain?_typeTokens_inside {depth : Nat} (hdepth : 0 < depth) (t : Token) (ts : List Token) :
    plain? (typeTokens depth (t :: ts)) =
      (plain? (typeTokens (depthBehind t.kind depth) ts)).map fun r => (t :: r.1, r.2) := by
  have hne : depth ≠ 0 := Nat.ne_of_gt hdepth
  by_cases ht : t.isTrivia = true
  · have single : AllTrivia [t] := by simpa [AllTrivia] using ht
    have hafter : afterTrivia (t :: ts) = afterTrivia ts := afterTrivia_append single ts
    have htrivia : trivia (t :: ts) = t :: trivia ts := trivia_append single ts
    rw [depthBehind_of_isTrivia ht]
    cases hts : afterTrivia ts with
    | nil =>
      rw [plain?_typeTokens_nil (hafter.trans hts), plain?_typeTokens_nil hts]
      rfl
    | cons u us =>
      rw [plain?_typeTokens_cons (hafter.trans hts), plain?_typeTokens_cons hts, htrivia]
      simp [hne]
      rfl
  · rw [Bool.not_eq_true] at ht
    rw [plain?_typeTokens_cons (afterTrivia_cons ht ts), trivia_cons ht]
    simp [hne]

theorem depthBehind_of_dueAfter {inner next : List TokenKind} {kind : TokenKind}
    (h : dueAfter inner kind = some next) (depth : Nat) :
    depthBehind kind (inner.length + depth) = next.length + depth := by
  unfold dueAfter at h
  rw [depthBehind, TokenKind.isOpening]
  split at h
  · rename_i close hclose
    cases h
    simp only [hclose, Option.isSome_some, if_true, List.length_cons]
    omega
  · rename_i hclose
    simp only [hclose, Option.isSome_none, Bool.false_eq_true, if_false]
    split at h
    · rename_i hclosing
      rw [if_pos hclosing]
      split at h
      · cases h
      · split at h
        · cases h
          simp only [List.length_cons]
          omega
        · cases h
    · rename_i hclosing
      cases h
      rw [if_neg hclosing]

theorem typeTokens_matched {m : List Token} (h : Matched m) {depth : Nat} (hdepth : 0 < depth)
    (ts : List Token) :
    plain? (typeTokens depth (m ++ ts)) =
      (plain? (typeTokens depth ts)).map fun r => (m ++ r.1, r.2) := by
  have pass {m : List Token} {inner rest : List TokenKind} (h : dueAfterAll inner m = some rest) :
      plain? (typeTokens (inner.length + depth) (m ++ ts)) =
        (plain? (typeTokens (rest.length + depth) ts)).map fun r => (m ++ r.1, r.2) := by
    induction m generalizing inner with
    | nil =>
      cases h
      simp
    | cons t m ih =>
      unfold dueAfterAll at h
      obtain ⟨next, hnext, hmore⟩ := Option.bind_eq_some_iff.1 h
      rw [List.cons_append, plain?_typeTokens_inside (by omega), depthBehind_of_dueAfter hnext,
        ih hmore, Option.map_map]
      rfl
  have hpass := pass h
  simpa using hpass

namespace Change

variable {c : Change}

/-! ## Declarations -/

theorem refusing_bind {α β : Type} (x : Option α) (f : α → Option β) :
    refusing (x.bind f) = (refusing x).bind fun a => refusing (f a) := by
  cases x <;> rfl

theorem refusing_map {α β : Type} (x : Option α) (f : α → β) :
    refusing (x.map f) = (refusing x).map f := by
  cases x <;> rfl

theorem length_lt_of_refusing {α : Type} {n : Nat} {result : Option (Parsed α n)} {a : α}
    {rest : List Token} (h : refusing (plain? result) = .ok (a, rest)) : rest.length < n :=
  length_lt_of_plain? (refusing_eq_ok.1 h)

theorem expectNext?_alike (kind : TokenKind) (hkind : kind ≠ .equals) :
    c.Local Any fun ts => refusing (plain? (expectNext? kind ts)) := by
  intro r s h
  obtain ⟨htrivia, hafter⟩ := h.skip
  simp only
  rw [plain?_expectNext?, plain?_expectNext?]
  rcases hafter.expect kind hkind with ⟨hr, hs⟩ | ⟨t, r', s', hr, hs, hrel⟩
  · rw [hr, hs]
    trivial
  · rw [hr, hs]
    exact ⟨hrel, trivial, fun _ => by simp only [htrivia]⟩

theorem statementEnd?_alike : c.Local Any fun ts => refusing (plain? (statementEnd? ts)) := by
  intro r s h
  obtain ⟨htrivia, hafter⟩ := h.skip
  simp only
  rw [plain?_statementEnd?, plain?_statementEnd?, plain?_expectNext?, plain?_expectNext?,
    ← h.nextKind_eq, ← h.newlineAhead_eq]
  rcases hafter.expect .semicolon (by decide) with ⟨hr, hs⟩ | ⟨t, r', s', hr, hs, hrel⟩
  · rw [hr, hs]
    simp only [Option.map_none]
    split
    · exact ⟨h, trivial, fun _ => rfl⟩
    · trivial
  · rw [hr, hs]
    exact ⟨hrel, trivial, fun _ => by simp only [htrivia]⟩

theorem importPath_alike : c.Local Any fun ts => refusing (plain? (importPath ts)) := by
  intro r s h
  obtain ⟨n, hn⟩ : ∃ n, r.length = n := ⟨_, rfl⟩
  induction n using Nat.strongRecOn generalizing r s with
  | ind n ih =>
    simp only
    rw [plain?_importPath, plain?_importPath, ← h.newlineAhead_eq]
    split
    · exact ⟨h, trivial, fun _ => rfl⟩
    · obtain ⟨htrivia, hafter⟩ := h.skip
      rw [plain?_expectNext? .dot r, plain?_expectNext? .dot s]
      rcases hafter.expect .dot (by decide) with ⟨hr, hs⟩ | ⟨dot, r', s', hr, hs, hrel⟩
      · rw [hr, hs]
        exact ⟨h, trivial, fun _ => rfl⟩
      · have hlt := length_lt_of_expect?_afterTrivia hr
        rw [hr, hs]
        simp only [Option.map_some, refusing_bind, refusing_map, htrivia]
        refine (expectNext?_alike .ident (by decide) hrel).bind fun a b m m' hm hrel' _ heq => ?_
        have hlt' := length_lt_of_refusing hm
        refine (ih m.length (by omega) hrel' rfl).map fun a' b' q q' hq hrel'' _ heq' => ?_
        refine ⟨hrel'', trivial, fun hlen => ?_⟩
        have := length_lt_of_refusing hq
        simp only at hlen
        simp only [heq (by omega), heq' hlen]

theorem importTail_alike : c.Local Any fun ts => refusing (plain? (importTail ts)) := by
  intro r s h
  simp only
  rw [plain?_importTail, plain?_importTail]
  simp only [refusing_bind, refusing_map]
  refine (expectNext?_alike .ident (by decide) h).bind fun a b m m' _ hrel _ heq => ?_
  refine (importPath_alike hrel).bind fun a' b' q q' hq hrel' _ heq' => ?_
  refine (statementEnd?_alike hrel').map fun a'' b'' w w' hw hrel'' _ heq'' => ?_
  refine ⟨hrel'', trivial, fun hlen => ?_⟩
  have := length_lt_of_refusing hq
  have := length_lt_of_refusing hw
  simp only at hlen
  simp only [heq (by omega), heq' (by omega), heq'' hlen]

theorem typeTokens_alike {depth : Nat} :
    c.Local Any fun ts => refusing (plain? (typeTokens depth ts)) := by
  intro r s h
  obtain ⟨n, hn⟩ : ∃ n, r.length = n := ⟨_, rfl⟩
  induction n using Nat.strongRecOn generalizing r s depth with
  | ind n ih =>
    obtain ⟨htrivia, hafter⟩ := h.skip
    simp only
    rcases hafter.split with ⟨hr, hs⟩ | ⟨t, r', s', hr, hs, hrel⟩
    · rw [plain?_typeTokens_nil hr, plain?_typeTokens_nil hs]
      trivial
    · rw [plain?_typeTokens_cons hr, plain?_typeTokens_cons hs]
      split
      · exact ⟨h, trivial, fun _ => rfl⟩
      · rename_i hstop
        split
        · trivial
        · simp only [refusing_map]
          rcases hrel with hrel | ⟨hsign, rfl, rfl⟩
          · have hlt : r'.length < n := by
              have := congrArg List.length (eq_of_afterTrivia hr)
              simp only [List.length_append, List.length_cons] at this
              omega
            refine (ih _ hlt hrel rfl).map fun a b m m' _ hrel' _ heq => ?_
            exact ⟨hrel', trivial, fun hlen => by simp only [heq hlen, htrivia]⟩
          · -- The sign is inside of delimiters, and so is the whole value.
            have hdepth : 0 < depth := Nat.pos_of_ne_zero fun hzero => hstop ⟨hsign, hzero⟩
            have hbehind : depthBehind t.kind depth = depth := by
              rw [hsign]
              rfl
            have passed {budget : Nat} {value : Tree} (hvalue : Sequence (Operand budget) value) :
                plain? (typeTokens depth (c.blank ++ (value.tokens ++ c.rest))) =
                  (plain? (typeTokens depth c.rest)).map fun r =>
                    (c.blank ++ value.tokens ++ r.1, r.2) := by
              rw [← List.append_assoc]
              exact typeTokens_matched
                ((matched_trivia c.allTrivia).append hvalue.operand_matched) hdepth c.rest
            rw [hbehind, passed c.oldExpr, passed c.newExpr]
            cases hrest : plain? (typeTokens depth c.rest) with
            | none => trivial
            | some p =>
              obtain ⟨inside, more⟩ := p
              have hsuffix : more <:+ c.rest := ⟨inside, (typeTokens_consumes hrest).symm⟩
              refine ⟨.behind hsuffix, trivial, fun hlen => ?_⟩
              have := hsuffix.length_le
              simp only at hlen
              omega

theorem typeClause_alike : c.Local Any fun ts => refusing (plain? (typeClause ts)) := by
  intro r s h
  obtain ⟨htrivia, hafter⟩ := h.skip
  simp only
  rw [plain?_typeClause, plain?_typeClause]
  rcases hafter.expect .colon (by decide) with ⟨hr, hs⟩ | ⟨colon, r', s', hr, hs, hrel⟩
  · rw [hr, hs]
    exact ⟨h, trivial, fun _ => rfl⟩
  · rw [hr, hs]
    simp only [refusing_map]
    refine (typeTokens_alike hrel).map fun a b m m' _ hrel' _ heq => ?_
    exact ⟨hrel', trivial, fun hlen => by simp only [heq hlen, htrivia]⟩

theorem expression_blank {budget : Nat} {value : Tree} (hvalue : Sequence (Operand budget) value)
    {blank rest : List Token} (hblank : AllTrivia blank) (hrest : extendsSequence rest = false) :
    Reads .tooDeep budget (plain (expression (afterTrivia (blank ++ (value.tokens ++ rest)))))
      (value, rest) := by
  rw [afterTrivia_append hblank,
    (Sequence.headed (operand_complete budget) hvalue).afterTrivia_append]
  exact expression_reads hvalue hrest

theorem bindingTail_alike : c.Local Any fun ts => plain (bindingTail ts) := by
  intro r s h
  simp only
  rw [plain_bindingTail, plain_bindingTail]
  refine (expectNext?_alike .ident (by decide) h).bind fun name name' m m' _ hrel _ heq => ?_
  refine (typeClause_alike hrel).bind fun type type' q q' hq hrel' _ heq' => ?_
  have hlen := length_lt_of_refusing hq
  obtain ⟨htrivia, hafter⟩ := hrel'.skip
  simp only [plain?_expectNext?]
  rcases hafter.split with ⟨hr, hs⟩ | ⟨t, u, u', hr, hs, hsplit⟩
  · rw [hr, hs]
    trivial
  · rw [hr, hs]
    by_cases ht : t.kind = .equals
    · rw [expect?_cons ht, expect?_cons ht]
      simp only [Option.map_some, refusing, Except.bind]
      have hlen' : u.length < q.length := by
        have := congrArg List.length (eq_of_afterTrivia hr)
        simp only [List.length_append, List.length_cons] at this
        omega
      rcases hsplit with hrel'' | ⟨_, rfl, rfl⟩
      · obtain ⟨htrivia', hafter'⟩ := hrel''.skip
        refine (expression_alike hafter').bind fun v v' w w' hw hrel₃ _ heq₃ => ?_
        have := length_lt_of_plain hw
        have := length_afterTrivia_le u
        refine (statementEnd?_alike hrel₃).map fun e e' z z' hz hrel₄ _ heq₄ => ?_
        refine ⟨hrel₄, trivial, fun hlt => ?_⟩
        have := length_lt_of_refusing hz
        simp only at hlt
        simp only [heq (by omega), heq' (by omega), heq₃ (by omega), heq₄ hlt, htrivia, htrivia']
      · -- The binding whose value is changed: both values are read, up to the same tokens.
        rw [(expression_blank c.oldExpr c.allTrivia c.ends).eq_ok]
        rcases expression_blank c.newExpr c.allTrivia c.ends with hnew | ⟨hdeep, ahead, hnew⟩
        · rw [hnew]
          simp only
          cases hend : plain? (statementEnd? c.rest) with
          | none => trivial
          | some p =>
            obtain ⟨inside, more⟩ := p
            have hsuffix : more <:+ c.rest := ⟨inside, (statementEnd?_consumes hend).symm⟩
            refine ⟨.behind hsuffix, trivial, fun hlt => ?_⟩
            have := hsuffix.length_le
            simp only at hlt
            omega
        · rw [hnew]
          exact alike_tooDeep hdeep _ ahead
    · have hnone (ts : List Token) : expect? .equals (t :: ts) = none := if_neg ht
      rw [hnone, hnone]
      trivial

theorem declaration_alike {r s : List Token} (h : c.Related r s) (hkind : headKind r ≠ .equals) :
    c.Alike Any (plain (declaration r)) (plain (declaration s)) := by
  rcases h.view with ⟨rfl, rfl⟩ | ⟨t, r', s', rfl, rfl, hrel⟩
  · trivial
  · rw [plain_declaration, plain_declaration]
    split
    · refine (importTail_alike (hrel hkind)).map fun a b m m' _ hrel' _ heq => ?_
      exact ⟨hrel', trivial, fun hlt => by simp only [heq hlt]⟩
    · refine (bindingTail_alike (hrel hkind)).map fun a b m m' _ hrel' _ heq => ?_
      exact ⟨hrel', trivial, fun hlt => by simp only [heq hlt]⟩

/-! ## Statements and items -/

theorem before_inj {ts us : List Token} (h : c.before ts = c.before us) : ts = us :=
  List.append_cancel_right h

theorem openAfter_again {opened opened' inner : List Opener} {t : Token} {ts : List Token}
    (hopened : opened.map Opener.token = opened'.map Opener.token)
    (h : openAfter opened t ts = .ok inner) (ts' : List Token) :
    ∃ inner', openAfter opened' t ts' = .ok inner' ∧
      inner.map Opener.token = inner'.map Opener.token := by
  unfold openAfter at h ⊢
  split at h
  · rename_i hopening
    cases h
    exact ⟨⟨t, ts'⟩ :: opened', if_pos hopening, by simp [hopened]⟩
  · rename_i hopening
    rw [if_neg hopening]
    split at h
    · rename_i hclosing
      rw [if_pos hclosing]
      split at h
      · cases h
      · rename_i opener more
        cases opened' with
        | nil => simp at hopened
        | cons opener' more' =>
          simp only [List.map_cons, List.cons.injEq] at hopened
          split at h
          · rename_i hclose
            cases h
            rw [hopened.1] at hclose
            exact ⟨more', by simp only [hclose, if_true], hopened.2⟩
          · cases h
    · rename_i hclosing
      cases h
      exact ⟨opened', if_neg hclosing, hopened⟩

theorem isEmpty_of_map_eq {opened opened' : List Opener}
    (h : opened.map Opener.token = opened'.map Opener.token) :
    opened.isEmpty = opened'.isEmpty := by
  cases opened <;> cases opened' <;> simp_all

theorem Related.endsBefore_eq {r s : List Token} (h : c.Related r s) (last : TokenKind) :
    endsBefore last r = endsBefore last s := by
  rw [endsBefore, endsBefore, h.nextKind_eq, h.newlineAhead_eq]

/-- A statement that ends before the changed value is the same statement with the new one. -/
theorem statementTokens_again {opened opened' : List Opener} {t : Token} {ts inside us : List Token}
    (hopened : opened.map Opener.token = opened'.map Opener.token)
    (h : plain (statementTokens opened t (c.before ts)) = .ok (inside, c.before us)) :
    plain (statementTokens opened' t (c.after ts)) = .ok (inside, c.after us) := by
  obtain ⟨n, hn⟩ : ∃ n, (c.before ts).length = n := ⟨_, rfl⟩
  induction n using Nat.strongRecOn generalizing opened opened' t ts inside with
  | ind n ih =>
    have hrel := Related.ahead (c := c) ts
    rw [plain_statementTokens] at h ⊢
    obtain ⟨inner, hinner, h⟩ := bind_eq_ok.1 h
    obtain ⟨inner', hinner', hmap⟩ := openAfter_again hopened hinner (c.after ts)
    rw [hinner']
    simp only [Except.bind]
    rw [← isEmpty_of_map_eq hmap, ← hrel.endsBefore_eq]
    split at h
    · rename_i hend
      rw [if_pos hend]
      simp only [Except.ok.injEq, Prod.mk.injEq] at h
      rw [← h.1, before_inj h.2]
    · rename_i hend
      rw [if_neg hend]
      obtain ⟨htrivia, hafter⟩ := hrel.skip
      rcases hafter.split with ⟨hr, hs⟩ | ⟨u, r', s', hr, hs, hsplit⟩
      · have hlen := congrArg List.length (eq_of_afterTrivia hr)
        rw [hr] at h
        simp only at h
        split at h
        · cases h
        · simp only [Except.ok.injEq, Prod.mk.injEq] at h
          have := congrArg List.length h.2
          simp only [before, List.length_append, List.length_cons, List.length_nil] at this
          omega
      · rw [hr] at h
        rw [hs]
        obtain ⟨⟨more, rest⟩, hmore, heq⟩ := map_eq_ok.1 h
        simp only [Prod.mk.injEq] at heq
        obtain ⟨rfl, rfl⟩ := heq
        have hle := length_lt_of_plain hmore
        rcases hsplit with hrel' | ⟨_, rfl, rfl⟩
        · generalize hr' : r' = r'' at hrel'
          cases hrel' with
          | ahead vs =>
            subst hr'
            have hlt : (c.before vs).length < n := by
              have := congrArg List.length (eq_of_afterTrivia hr)
              simp only [List.length_append, List.length_cons] at this
              omega
            simp only [ih _ hlt hmap hmore rfl, Except.map, htrivia]
          | behind hsuffix =>
            have := hsuffix.length_le
            have := Related.length_ahead (c := c) us
            rw [← hr'] at *
            omega
        · simp only [before, List.length_append, List.length_cons] at hle
          omega

theorem item_again {t : Token} {ts us : List Token} {v : Tree}
    (h : plain (item t (c.before ts)) = .ok (v, c.before us)) :
    Reads tooDeepAt c.budget (plain (item t (c.after ts))) (v, c.after us) := by
  have statement_again (h : plain (statement t (c.before ts)) = .ok (v, c.before us)) :
      Reads tooDeepAt c.budget (plain (statement t (c.after ts))) (v, c.after us) := by
    rw [plain_statement] at h ⊢
    obtain ⟨⟨inside, rest⟩, hinside, heq⟩ := map_eq_ok.1 h
    simp only [Prod.mk.injEq] at heq
    obtain ⟨rfl, rfl⟩ := heq
    rw [statementTokens_again rfl hinside]
    exact .inl rfl
  rw [plain_item] at h ⊢
  split at h
  · rename_i hsemicolon
    rw [if_pos hsemicolon]
    simp only [Except.ok.injEq, Prod.mk.injEq] at h
    rw [← h.1, before_inj h.2]
    exact .inl rfl
  · rename_i hsemicolon
    rw [if_neg hsemicolon]
    split at h
    · rename_i hstarts
      rw [if_pos hstarts]
      have hkind : t.kind ≠ .equals := by
        intro heq
        rw [heq] at hstarts
        cases hstarts
      have hdecl : c.Alike Any (plain (declaration (t :: c.before ts)))
          (plain (declaration (t :: c.after ts))) :=
        declaration_alike (.ahead (t :: ts)) hkind
      split at h
      · rename_i r hr
        simp only [Except.ok.injEq] at h
        subst h
        rcases hdecl.reads hr with hnew | ⟨hdeep, ahead, hnew⟩
        · rw [hnew]
          exact .inl rfl
        · rw [hnew]
          exact .inr ⟨hdeep, ahead, rfl⟩
      · cases h
      · rename_i hr
        rcases hdecl.unsupported hr with hnew | ⟨hdeep, ahead, hnew⟩
        · rw [hnew]
          exact statement_again h
        · rw [hnew]
          exact .inr ⟨hdeep, ahead, rfl⟩
    · rename_i hstarts
      rw [if_neg hstarts]
      exact statement_again h

end Change

/-! ## Where no expression stands -/

def NoExpr (t : Tree) : Prop := ∀ path s, t.get? path = some s → s.isExpr = false

theorem NoExpr.isExpr {t : Tree} (h : NoExpr t) : t.isExpr = false :=
  h [] t (by cases t <;> rfl)

theorem noExpr_token (t : Token) : NoExpr (.token t) := by
  intro path s hget
  cases path with
  | nil =>
    cases hget
    rfl
  | cons i path => cases hget

theorem noExpr_leaves (ts : List Token) : ∀ t ∈ leaves ts, NoExpr t := by
  intro t ht
  obtain ⟨u, _, rfl⟩ := Tree.eq_token_of_mem_leaves ht
  exact noExpr_token u

theorem noExpr_flat {kind : NodeKind} (hkind : kind.isExpr = false) (ts : List Token) :
    NoExpr (.node kind (leaves ts)) := by
  intro path s hget
  cases path with
  | nil =>
    cases hget
    exact hkind
  | cons i path =>
    obtain ⟨c, hc, hget⟩ := Option.bind_eq_some_iff.1 hget
    exact noExpr_leaves ts c (List.mem_of_getElem? hc) path s hget

/-! ## The changed binding -/

structure Binding where
  front : List Tree
  sign : Token
  blank : List Token
  last : List Token

namespace Binding

def children (b : Binding) (value : Tree) : List Tree :=
  b.front ++ .token b.sign :: (leaves b.blank ++ value :: leaves b.last)

def tree (b : Binding) (value : Tree) : Tree := .node .variableDecl (b.children value)

structure Binds (b : Binding) (value : Tree) (more : List Token) : Prop where
  equals : b.sign.kind = .equals
  allTrivia : AllTrivia b.blank
  expression : Expression value
  ends : extendsSequence (b.last ++ more) = false
  noExpr : ∀ t ∈ b.front, NoExpr t

end Binding

theorem typeClause_noExpr {ts rest : List Token} {trees : List Tree}
    (h : plain? (typeClause ts) = some (trees, rest)) : ∀ t ∈ trees, NoExpr t := by
  rw [plain?_typeClause] at h
  split at h
  · cases h
    simp
  · obtain ⟨inside, _, heq⟩ := Option.map_eq_some_iff.1 h
    cases heq
    rw [List.forall_mem_append, List.forall_mem_singleton]
    exact ⟨noExpr_leaves _, noExpr_flat rfl _⟩

theorem bindingTail_rebind {ts rest : List Token} {trees : List Tree}
    (h : plain (bindingTail ts) = .ok (trees, rest)) :
    ∃ b : Binding, ∃ value, trees = b.children value ∧ b.Binds value rest ∧
      ∀ {budget : Nat} {new : Tree}, Sequence (Operand budget) new →
        Reads .tooDeep budget (plain (bindingTail (Tree.tokensList (b.children new) ++ rest)))
          (b.children new, rest) := by
  rw [plain_bindingTail] at h
  obtain ⟨⟨name, ts₁⟩, hname, h⟩ := bind_eq_ok.1 h
  obtain ⟨⟨type, ts₂⟩, htype, h⟩ := bind_eq_ok.1 h
  obtain ⟨⟨equals, ts₃⟩, hequals, h⟩ := bind_eq_ok.1 h
  obtain ⟨⟨value, ts₄⟩, hvalue, h⟩ := bind_eq_ok.1 h
  obtain ⟨⟨last, ts₅⟩, hlast, heq⟩ := map_eq_ok.1 h
  simp only [Prod.mk.injEq] at heq
  obtain ⟨rfl, rfl⟩ := heq
  simp only at hname htype hequals hvalue hlast
  have hname' := refusing_eq_ok.1 hname
  have htype' := refusing_eq_ok.1 htype
  have hequals' := refusing_eq_ok.1 hequals
  have hts₄ : ts₄ = last ++ ts₅ := statementEnd?_consumes (refusing_eq_ok.1 hlast)
  obtain ⟨hexpr, hts₃, hends⟩ := expression_sound hvalue
  rw [plain?_expectNext?] at hequals'
  obtain ⟨⟨sign, after⟩, hsign, heq⟩ := Option.map_eq_some_iff.1 hequals'
  simp only [Prod.mk.injEq] at heq
  obtain ⟨rfl, rfl⟩ := heq
  obtain ⟨hafter, hkind⟩ := expect?_eq_some hsign
  have hbefore := allTrivia_trivia ts₂
  have hts₂ := eq_of_afterTrivia hafter
  generalize trivia ts₂ = before at hbefore hts₂ ⊢
  refine ⟨⟨leaves name ++ type ++ leaves before, sign, trivia after, last⟩, value, ?_,
    ⟨hkind, allTrivia_trivia after, hexpr, hts₄ ▸ hends, ?_⟩, fun {budget new} hnew => ?_⟩
  · simp [leaves, Binding.children]
  · simp only [List.forall_mem_append]
    exact ⟨⟨noExpr_leaves _, typeClause_noExpr htype'⟩, noExpr_leaves _⟩
  · let c : Change := ⟨sign, trivia after, value, new, ts₄, budget, hkind,
      allTrivia_trivia after, hexpr, hnew, hends⟩
    have h₂ : ts₂ = c.before before := by
      rwa [eq_of_afterTrivia hts₃] at hts₂
    have h₁ : ts₁ = c.before (Tree.tokensList type ++ before) := by
      rw [typeClause_consumes htype', h₂, Change.before, Change.before, List.append_assoc]
    have h₀ : ts = c.before (name ++ (Tree.tokensList type ++ before)) := by
      rw [expectNext?_consumes hname', h₁, Change.before, Change.before, List.append_assoc name]
    rw [h₀, h₁] at hname
    rw [h₁, h₂] at htype
    have hname_new : refusing (plain? (expectNext? .ident
        (c.after (name ++ (Tree.tokensList type ++ before))))) =
        .ok (name, c.after (Tree.tokensList type ++ before)) :=
      (Change.expectNext?_alike .ident (by decide) (.ahead _)).refusing_eq_ok hname
    have htype_new : refusing (plain? (typeClause (c.after (Tree.tokensList type ++ before)))) =
        .ok (type, c.after before) :=
      (Change.typeClause_alike (.ahead _)).refusing_eq_ok htype
    have hsign_new : afterTrivia (c.after before) = sign :: (c.blank ++ (new.tokens ++ ts₄)) := by
      rw [Change.after, afterTrivia_append hbefore, afterTrivia_cons c.sign_not_trivia]
    have htrivia_new : trivia (c.after before) = before := by
      rw [Change.after, trivia_append hbefore, trivia_cons c.sign_not_trivia, List.append_nil]
    have htrivia_blank : trivia (c.blank ++ (new.tokens ++ ts₄)) = trivia after := by
      rw [trivia_append c.allTrivia,
        (Sequence.headed (operand_complete budget) hnew).trivia_append, List.append_nil]
    have hts : Tree.tokensList (Binding.children
        ⟨leaves name ++ type ++ leaves before, sign, trivia after, last⟩ new) ++ ts₅ =
        c.after (name ++ (Tree.tokensList type ++ before)) := by
      simp [Binding.children, Change.after, c, hts₄]
    rw [hts, plain_bindingTail, hname_new]
    simp only [Except.bind]
    rw [htype_new]
    simp only [plain?_expectNext?, hsign_new, htrivia_new, expect?_cons hkind, Option.map_some,
      refusing_eq_ok.2 rfl]
    rw [htrivia_blank]
    refine (Change.expression_blank hnew c.allTrivia hends).bind (.inl ?_)
    simp only [hlast, Except.map]
    simp [leaves, Binding.children]

/-! ## Items -/

theorem item_variableDecl {t : Token} {ts rest : List Token} {v : Tree}
    (h : plain (item t ts) = .ok (v, rest)) (hv : v.isNode .variableDecl = true) :
    startsDeclaration t.kind = true ∧ t.kind ≠ .importKw ∧
      ∃ trees, plain (bindingTail ts) = .ok (trees, rest) ∧
        v = .node .variableDecl (.token t :: trees) := by
  cases itemOf_of_item h with
  | semicolon _ | importDecl _ _ | statement _ => cases hv
  | binding hstarts hkind hbinding => exact ⟨hstarts, hkind, _, hbinding, rfl⟩

theorem item_binding {t : Token} {ts rest : List Token} {trees : List Tree}
    (hstarts : startsDeclaration t.kind = true) (himport : t.kind ≠ .importKw) {budget : Nat}
    (h : Reads .tooDeep budget (plain (bindingTail ts)) (trees, rest)) :
    Reads tooDeepAt budget (plain (item t ts))
      (.node .variableDecl (.token t :: trees), rest) := by
  have hsemicolon : t.kind ≠ .semicolon := by
    intro hkind
    rw [hkind] at hstarts
    cases hstarts
  rw [plain_item, if_neg hsemicolon, if_pos hstarts, plain_declaration, if_neg himport]
  rcases h with h | ⟨hdeep, ahead, h⟩ <;> rw [h]
  · exact .inl rfl
  · exact .inr ⟨hdeep, ahead, by rfl⟩

theorem item_noExpr {t : Token} {ts rest : List Token} {v : Tree}
    (h : plain (item t ts) = .ok (v, rest)) : v.isNode .variableDecl = true ∨ NoExpr v := by
  cases itemOf_of_item h with
  | semicolon _ => exact .inr (noExpr_token t)
  | importDecl _ _ | statement _ => exact .inr (noExpr_flat rfl _)
  | binding _ _ _ => exact .inl rfl

theorem items_noExpr {ts : List Token} {trees : List Tree} (h : items ts = .ok trees) :
    ∀ c ∈ trees, c.isNode .variableDecl = true ∨ NoExpr c := by
  have leaves_noExpr (us : List Token) :
      ∀ c ∈ leaves us, c.isNode .variableDecl = true ∨ NoExpr c := fun c hc =>
    .inr (noExpr_leaves us c hc)
  induction h using items_induction with
  | done _ _ => exact leaves_noExpr _
  | next _ _ hitem _ ih =>
    rw [List.forall_mem_append, List.forall_mem_cons]
    exact ⟨leaves_noExpr _, item_noExpr hitem, ih⟩

theorem tokensList_binding (b : Binding) (value : Tree) (left right : List Tree) :
    Tree.tokensList (left ++ b.tree value :: right) =
      Tree.tokensList left ++ Tree.tokensList b.front ++ b.sign :: (b.blank ++ (value.tokens ++
        (b.last ++ Tree.tokensList right))) := by
  simp [Binding.tree, Binding.children]

theorem items_cons {tr rest mid : List Token} {t : Token} {v : Tree} {more : List Tree}
    {budget : Nat} (htr : AllTrivia tr) (ht : t.isTrivia = false)
    (hitem : Reads tooDeepAt budget (plain (item t rest)) (v, mid))
    (hmore : Reads tooDeepAt budget (items mid) more) :
    Reads tooDeepAt budget (items (tr ++ t :: rest)) (leaves tr ++ v :: more) := by
  rw [items_eq, afterTrivia_append htr, afterTrivia_cons ht]
  simp only [trivia_append htr, trivia_cons ht, List.append_nil]
  exact hitem.bind (hmore.map _)

theorem items_cons_rebind {tr rest mid : List Token} {t : Token} {first value new : Tree}
    {inner right : List Tree} {b : Binding} {budget : Nat} (htr : AllTrivia tr)
    (ht : t.isTrivia = false)
    (hitem : plain (item t rest) = .ok (first, mid))
    (hmore : items mid = .ok (inner ++ b.tree value :: right))
    (hbinds : b.Binds value (Tree.tokensList right)) (hnew : Sequence (Operand budget) new)
    (hrebind : Reads tooDeepAt budget (items (Tree.tokensList (inner ++ b.tree new :: right)))
      (inner ++ b.tree new :: right)) :
    Reads tooDeepAt budget
      (items (Tree.tokensList (leaves tr ++ first :: inner ++ b.tree new :: right)))
      (leaves tr ++ first :: inner ++ b.tree new :: right) := by
  let c : Change := ⟨b.sign, b.blank, value, new, b.last ++ Tree.tokensList right, budget,
    hbinds.equals, hbinds.allTrivia, hbinds.expression, hnew, hbinds.ends⟩
  have hmid : mid = c.before (Tree.tokensList inner ++ Tree.tokensList b.front) := by
    rw [← items_consumes hmore, tokensList_binding]
    rfl
  have hfirst := item_consumes hitem
  cases htokens : first.tokens with
  | nil =>
    have hlen := congrArg List.length hfirst
    have := length_lt_of_plain hitem
    rw [htokens, List.nil_append, List.length_cons] at hlen
    omega
  | cons u us =>
    rw [htokens, List.cons_append] at hfirst
    obtain ⟨rfl, hrest⟩ := List.cons.inj hfirst
    have hbefore : rest =
        c.before (us ++ (Tree.tokensList inner ++ Tree.tokensList b.front)) := by
      rw [hrest, hmid, Change.before, Change.before, List.append_assoc us]
    rw [hbefore, hmid] at hitem
    have hmore' : Reads tooDeepAt budget
        (items (c.after (Tree.tokensList inner ++ Tree.tokensList b.front)))
        (inner ++ b.tree new :: right) := by
      rwa [tokensList_binding] at hrebind
    have hall := items_cons htr ht (Change.item_again hitem) hmore'
    have htokens' : Tree.tokensList (leaves tr ++ first :: inner ++ b.tree new :: right) =
        tr ++ t :: c.after (us ++ (Tree.tokensList inner ++ Tree.tokensList b.front)) := by
      rw [tokensList_binding]
      simp [Change.after, htokens, c]
    rw [htokens']
    simpa using hall

/-- A manifest can be given another value for one of its bindings. -/
theorem items_rebind {ts : List Token} {left right : List Tree} {v : Tree}
    (h : items ts = .ok (left ++ v :: right)) (hv : v.isNode .variableDecl = true) :
    ∃ b : Binding, ∃ value, v = b.tree value ∧ b.Binds value (Tree.tokensList right) ∧
      ∀ {budget : Nat} {new : Tree}, Sequence (Operand budget) new →
        Reads tooDeepAt budget (items (Tree.tokensList (left ++ b.tree new :: right)))
          (left ++ b.tree new :: right) := by
  obtain ⟨n, hn⟩ : ∃ n, ts.length = n := ⟨_, rfl⟩
  induction n using Nat.strongRecOn generalizing ts left with
  | ind n ih =>
    rw [items_eq] at h
    cases hts : afterTrivia ts with
    | nil =>
      -- No binding among nothing but trivia.
      rw [hts] at h
      exact absurd (Except.ok.inj h) (Tree.leaves_ne (Tree.token?_of_isNode hv))
    | cons t rest =>
      rw [hts] at h
      obtain ⟨⟨first, mid⟩, hitem, h⟩ := bind_eq_ok.1 h
      obtain ⟨more, hmore, heq⟩ := map_eq_ok.1 h
      have ht := isTrivia_of_afterTrivia hts
      have hwhole := eq_of_afterTrivia hts
      have htrivia := allTrivia_trivia ts
      simp only at hmore heq
      rcases Tree.leaves_append_eq (Tree.token?_of_isNode hv) heq with
        ⟨rfl, rfl, rfl⟩ | ⟨inner, rfl, rfl⟩
      · obtain ⟨hstarts, himport, trees, htail, rfl⟩ := item_variableDecl hitem hv
        obtain ⟨b, value, rfl, hbinds, hrebind⟩ := bindingTail_rebind htail
        rw [← items_consumes hmore] at hbinds
        refine ⟨{ b with front := .token t :: b.front }, value, rfl,
          { hbinds with noExpr := ?_ }, fun {budget new} hnew => ?_⟩
        · exact List.forall_mem_cons.2 ⟨noExpr_token t, hbinds.noExpr⟩
        · have hnew' := items_cons htrivia ht
            (item_binding hstarts himport (hrebind hnew)) (.inl hmore)
          have htokens : Tree.tokensList (leaves (trivia ts) ++
              Binding.tree { b with front := .token t :: b.front } new :: more) =
              trivia ts ++ t :: (Tree.tokensList (b.children new) ++ mid) := by
            rw [← items_consumes hmore]
            simp [Binding.tree, Binding.children]
          rw [htokens]
          exact hnew'
      · have hlt : mid.length < n := by
          have := length_lt_of_plain hitem
          have := congrArg List.length hwhole
          simp only [List.length_append, List.length_cons] at this
          omega
        obtain ⟨b, value, rfl, hbinds, hrebind⟩ := ih _ hlt hmore rfl
        refine ⟨b, value, rfl, hbinds, fun hnew => ?_⟩
        exact items_cons_rebind htrivia ht hitem hmore hbinds hnew (hrebind hnew)

end PackageManifest.Proofs.Grammar
