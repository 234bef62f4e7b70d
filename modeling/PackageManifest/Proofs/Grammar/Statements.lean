import PackageManifest.Proofs.Grammar.Soundness

/-!
# What a statement rule reads

The equations of `plain` for the rules of declarations, statements and items, and the tokens that
they consume.
-/

namespace PackageManifest.Proofs.Grammar

open Source

theorem plain?_expectNext? (kind : TokenKind) (ts : List Token) :
    plain? (expectNext? kind ts) =
      (expect? kind (afterTrivia ts)).map fun r => (trivia ts ++ [r.1], r.2) := by
  unfold expectNext?
  split <;> simp_all

theorem plain?_statementEnd? (ts : List Token) :
    plain? (statementEnd? ts) =
      match plain? (expectNext? .semicolon ts) with
      | some r => some r
      | none => if nextKind ts = .eof || newlineAhead ts then some ([], ts) else none := by
  unfold statementEnd?
  cases expectNext? .semicolon ts with
  | some p => rfl
  | none =>
    simp only [plain?_none]
    split <;> rfl

theorem plain?_importPath (ts : List Token) :
    plain? (importPath ts) =
      if newlineAhead ts then some ([], ts)
      else
        match plain? (expectNext? .dot ts) with
        | none => some ([], ts)
        | some dot =>
          (plain? (expectNext? .ident dot.2)).bind fun name =>
            (plain? (importPath name.2)).map fun more => (dot.1 ++ name.1 ++ more.1, more.2) := by
  rw [importPath]
  split
  · rfl
  · cases expectNext? .dot ts with
    | none => rfl
    | some dot =>
      simp only [plain?_some]
      cases expectNext? .ident dot.rest with
      | none => rfl
      | some name => exact plain?_map _ _ _

theorem plain?_importTail (ts : List Token) :
    plain? (importTail ts) =
      (plain? (expectNext? .ident ts)).bind fun name =>
        (plain? (importPath name.2)).bind fun path =>
          (plain? (statementEnd? path.2)).map fun last =>
            (name.1 ++ path.1 ++ last.1, last.2) := by
  unfold importTail
  cases expectNext? .ident ts with
  | none => rfl
  | some name =>
    simp only [plain?_some, Option.bind_some]
    cases importPath name.rest with
    | none => rfl
    | some path =>
      simp only [plain?_some, Option.bind_some]
      cases statementEnd? path.rest <;> rfl

def depthBehind (kind : TokenKind) (depth : Nat) : Nat :=
  if kind.isOpening then depth + 1
  else if kind.isClosing then depth - 1
  else depth

theorem plain?_typeTokens_nil {depth : Nat} {ts : List Token} (h : afterTrivia ts = []) :
    plain? (typeTokens depth ts) = none := by
  unfold typeTokens
  split
  · rfl
  · simp_all

theorem plain?_typeTokens_cons {depth : Nat} {ts rest : List Token} {t : Token}
    (h : afterTrivia ts = t :: rest) :
    plain? (typeTokens depth ts) =
      if t.kind = .equals ∧ depth = 0 then some ([], ts)
      else if t.kind.isClosing ∧ depth = 0 then none
      else (plain? (typeTokens (depthBehind t.kind depth) rest)).map fun more =>
        (trivia ts ++ t :: more.1, more.2) := by
  rw [typeTokens]
  split
  · simp_all
  · rename_i t' rest' h'
    obtain ⟨rfl, rfl⟩ := List.cons.inj (h'.symm.trans h)
    split
    · rfl
    · split
      · rfl
      · exact plain?_map _ _ _

theorem plain?_typeClause (ts : List Token) :
    plain? (typeClause ts) =
      match expect? .colon (afterTrivia ts) with
      | none => some ([], ts)
      | some (colon, rest) =>
        (plain? (typeTokens 0 rest)).map fun r =>
          (leaves (trivia ts) ++ [.node .typeClause (leaves (colon :: r.1))], r.2) := by
  unfold typeClause
  split
  · rename_i h
    simp [h]
  · rename_i h
    simp only [h]
    exact plain?_map _ _ _

def refusing {α : Type} : Option α → Except Refusal α
  | some a => .ok a
  | none => .error .unsupported

theorem refusing_eq_ok {α : Type} {x : Option α} {a : α} : refusing x = .ok a ↔ x = some a := by
  cases x <;> simp [refusing]

theorem plain_bindingTail (ts : List Token) :
    plain (bindingTail ts) =
      (refusing (plain? (expectNext? .ident ts))).bind fun name =>
        (refusing (plain? (typeClause name.2))).bind fun type =>
          (refusing (plain? (expectNext? .equals type.2))).bind fun equals =>
            (plain (expression (afterTrivia equals.2))).bind fun value =>
              (refusing (plain? (statementEnd? value.2))).map fun last =>
                (leaves name.1 ++ type.1 ++ leaves equals.1 ++ leaves (trivia equals.2) ++
                  value.1 :: leaves last.1, last.2) := by
  unfold bindingTail
  cases expectNext? .ident ts with
  | none => rfl
  | some name =>
    simp only [plain?_some, refusing, Except.bind]
    cases typeClause name.rest with
    | none => rfl
    | some type =>
      simp only [plain?_some]
      cases expectNext? .equals type.rest with
      | none => rfl
      | some equals =>
        simp only [plain?_some]
        cases expression (afterTrivia equals.rest) with
        | error e => rfl
        | ok value =>
          simp only [plain_ok]
          cases statementEnd? value.rest <;> rfl

theorem plain_declaration (t : Token) (ts : List Token) :
    plain (declaration (t :: ts)) =
      if t.kind = .importKw then
        (refusing (plain? (importTail ts))).map fun r =>
          (.node .importDecl (leaves (t :: r.1)), r.2)
      else
        (plain (bindingTail ts)).map fun r => (.node .variableDecl (.token t :: r.1), r.2) := by
  rw [declaration]
  split
  · cases importTail ts <;> rfl
  · cases bindingTail ts <;> rfl

theorem plain_statementTokens (opened : List Opener) (t : Token) (ts : List Token) :
    plain (statementTokens opened t ts) =
      (openAfter opened t ts).bind fun inner =>
        if inner.isEmpty && (t.kind == .semicolon || endsBefore t.kind ts) then .ok ([t], ts)
        else
          match afterTrivia ts with
          | u :: us =>
            (plain (statementTokens inner u us)).map fun r => (t :: trivia ts ++ r.1, r.2)
          | [] =>
            match inner with
            | opener :: _ => .error ⟨.unclosed opener.token.text, opener.token :: opener.after⟩
            | [] => .ok (t :: ts, []) := by
  rw [statementTokens]
  cases openAfter opened t ts with
  | error e => rfl
  | ok inner =>
    simp only [Except.bind]
    split
    · rfl
    · split
      · rename_i u us h
        simp only [h]
        cases statementTokens inner u us <;> rfl
      · rename_i h
        simp only [h]
        cases inner <;> rfl

theorem plain_statement (t : Token) (ts : List Token) :
    plain (statement t ts) =
      (plain (statementTokens [] t ts)).map fun r => (.node .statement (leaves r.1), r.2) := by
  unfold statement
  cases statementTokens [] t ts <;> rfl

theorem plain_item (t : Token) (ts : List Token) :
    plain (item t ts) =
      if t.kind = .semicolon then .ok (.token t, ts)
      else if startsDeclaration t.kind then
        match plain (declaration (t :: ts)) with
        | .ok r => .ok r
        | .error (.tooDeep ahead) => .error ⟨.tooDeep maxNesting, ahead⟩
        | .error .unsupported => plain (statement t ts)
      else plain (statement t ts) := by
  unfold item
  split
  · rfl
  · split
    · cases hdecl : declaration (t :: ts) with
      | ok p => rfl
      | error e => cases e <;> rfl
    · rfl

/-- What is read as an item that starts with `t`, and what is left of the tokens `ts` behind. -/
inductive ItemOf (t : Token) (ts : List Token) : Tree → List Token → Prop
  | semicolon : t.kind = .semicolon → ItemOf t ts (.token t) ts
  | importDecl {inside rest : List Token} : t.kind = .importKw →
      plain? (importTail ts) = some (inside, rest) →
      ItemOf t ts (.node .importDecl (leaves (t :: inside))) rest
  | binding {inside : List Tree} {rest : List Token} : startsDeclaration t.kind = true →
      t.kind ≠ .importKw → plain (bindingTail ts) = .ok (inside, rest) →
      ItemOf t ts (.node .variableDecl (.token t :: inside)) rest
  | statement {inside rest : List Token} :
      plain (statementTokens [] t ts) = .ok (inside, rest) →
      ItemOf t ts (.node .statement (leaves inside)) rest

theorem itemOf_of_item {t : Token} {ts rest : List Token} {tree : Tree}
    (h : plain (item t ts) = .ok (tree, rest)) : ItemOf t ts tree rest := by
  have of_statement (h : plain (statement t ts) = .ok (tree, rest)) : ItemOf t ts tree rest := by
    rw [plain_statement] at h
    obtain ⟨inside, hinside, heq⟩ := map_eq_ok.1 h
    cases heq
    exact .statement hinside
  rw [plain_item] at h
  split at h
  · rename_i hsemicolon
    cases h
    exact .semicolon hsemicolon
  · split at h
    · rename_i hstarts
      split at h
      · rename_i r hdecl
        cases h
        rw [plain_declaration] at hdecl
        split at hdecl
        · rename_i hkind
          obtain ⟨inside, himport, heq⟩ := map_eq_ok.1 hdecl
          cases heq
          exact .importDecl hkind (refusing_eq_ok.1 himport)
        · rename_i hkind
          obtain ⟨inside, hbinding, heq⟩ := map_eq_ok.1 hdecl
          cases heq
          exact .binding hstarts hkind hbinding
      · cases h
      · exact of_statement h
    · exact of_statement h

theorem items_eq (ts : List Token) :
    items ts =
      match afterTrivia ts with
      | [] => .ok (leaves (trivia ts))
      | t :: rest =>
        (plain (item t rest)).bind fun r =>
          (items r.2).map fun more => leaves (trivia ts) ++ r.1 :: more := by
  rw [items]
  split
  · rename_i h
    simp [h]
  · rename_i t rest h
    simp only [h]
    cases item t rest with
    | error e => rfl
    | ok p =>
      simp only [plain_ok, Except.bind]
      cases items p.rest <;> rfl

/-! ## What is consumed -/

theorem expectNext?_consumes {kind : TokenKind} {ts inside rest : List Token}
    (h : plain? (expectNext? kind ts) = some (inside, rest)) : ts = inside ++ rest := by
  rw [plain?_expectNext?] at h
  obtain ⟨⟨t, after⟩, ht, heq⟩ := Option.map_eq_some_iff.1 h
  cases heq
  obtain ⟨hts, _⟩ := expect?_eq_some ht
  simpa using eq_of_afterTrivia hts

theorem statementEnd?_consumes {ts inside rest : List Token}
    (h : plain? (statementEnd? ts) = some (inside, rest)) : ts = inside ++ rest := by
  rw [plain?_statementEnd?] at h
  split at h
  · rename_i hsemicolon
    cases h
    exact expectNext?_consumes hsemicolon
  · split at h
    · cases h
      rfl
    · cases h

theorem importPath_consumes {ts inside rest : List Token}
    (h : plain? (importPath ts) = some (inside, rest)) : ts = inside ++ rest := by
  induction hn : ts.length using Nat.strongRecOn generalizing ts inside with
  | ind n ih =>
    rw [plain?_importPath] at h
    split at h
    · cases h
      rfl
    · split at h
      · cases h
        rfl
      · rename_i dot hdot
        obtain ⟨name, hname, hmore⟩ := Option.bind_eq_some_iff.1 h
        obtain ⟨more, hpath, heq⟩ := Option.map_eq_some_iff.1 hmore
        cases heq
        have hlt : name.2.length < n := by
          have := length_lt_of_plain? hdot
          have := length_lt_of_plain? hname
          omega
        rw [expectNext?_consumes hdot, expectNext?_consumes hname, ih _ hlt hpath rfl]
        simp

theorem importTail_consumes {ts inside rest : List Token}
    (h : plain? (importTail ts) = some (inside, rest)) : ts = inside ++ rest := by
  rw [plain?_importTail] at h
  obtain ⟨name, hname, h⟩ := Option.bind_eq_some_iff.1 h
  obtain ⟨path, hpath, h⟩ := Option.bind_eq_some_iff.1 h
  obtain ⟨last, hlast, heq⟩ := Option.map_eq_some_iff.1 h
  cases heq
  rw [expectNext?_consumes hname, importPath_consumes hpath, statementEnd?_consumes hlast]
  simp

theorem typeTokens_consumes {depth : Nat} {ts inside rest : List Token}
    (h : plain? (typeTokens depth ts) = some (inside, rest)) : ts = inside ++ rest := by
  induction hn : ts.length using Nat.strongRecOn generalizing depth ts inside with
  | ind n ih =>
    cases hts : afterTrivia ts with
    | nil =>
      rw [plain?_typeTokens_nil hts] at h
      cases h
    | cons t after =>
      rw [plain?_typeTokens_cons hts] at h
      split at h
      · cases h
        rfl
      · split at h
        · cases h
        · obtain ⟨more, hmore, heq⟩ := Option.map_eq_some_iff.1 h
          cases heq
          have hwhole := eq_of_afterTrivia hts
          have hlt : after.length < n := by
            have := congrArg List.length hwhole
            simp only [List.length_append, List.length_cons] at this
            omega
          rw [hwhole, ih _ hlt hmore rfl]
          simp [trivia_append (allTrivia_trivia ts), trivia_cons (isTrivia_of_afterTrivia hts)]

theorem typeClause_consumes {ts rest : List Token} {trees : List Tree}
    (h : plain? (typeClause ts) = some (trees, rest)) : ts = Tree.tokensList trees ++ rest := by
  rw [plain?_typeClause] at h
  split at h
  · cases h
    rfl
  · rename_i colon after hcolon
    obtain ⟨inside, htype, heq⟩ := Option.map_eq_some_iff.1 h
    cases heq
    obtain ⟨hts, _⟩ := expect?_eq_some hcolon
    rw [typeTokens_consumes htype] at hts
    simpa using eq_of_afterTrivia hts

theorem bindingTail_consumes {ts rest : List Token} {trees : List Tree}
    (h : plain (bindingTail ts) = .ok (trees, rest)) : ts = Tree.tokensList trees ++ rest := by
  rw [plain_bindingTail] at h
  obtain ⟨name, hname, h⟩ := bind_eq_ok.1 h
  obtain ⟨type, htype, h⟩ := bind_eq_ok.1 h
  obtain ⟨equals, hequals, h⟩ := bind_eq_ok.1 h
  obtain ⟨value, hvalue, h⟩ := bind_eq_ok.1 h
  obtain ⟨last, hlast, heq⟩ := map_eq_ok.1 h
  cases heq
  have hvalue := eq_of_afterTrivia (expression_sound hvalue).2.1
  rw [statementEnd?_consumes (refusing_eq_ok.1 hlast)] at hvalue
  rw [expectNext?_consumes (refusing_eq_ok.1 hname), typeClause_consumes (refusing_eq_ok.1 htype),
    expectNext?_consumes (refusing_eq_ok.1 hequals)]
  simpa using hvalue

theorem declaration_consumes {ts rest : List Token} {t : Tree}
    (h : plain (declaration ts) = .ok (t, rest)) : ts = t.tokens ++ rest := by
  cases ts with
  | nil => cases h
  | cons u us =>
    rw [plain_declaration] at h
    split at h
    · obtain ⟨inside, himport, heq⟩ := map_eq_ok.1 h
      cases heq
      rw [importTail_consumes (refusing_eq_ok.1 himport)]
      simp
    · obtain ⟨inside, hbinding, heq⟩ := map_eq_ok.1 h
      cases heq
      rw [bindingTail_consumes hbinding]
      simp

theorem statementTokens_consumes {opened : List Opener} {t : Token} {ts inside rest : List Token}
    (h : plain (statementTokens opened t ts) = .ok (inside, rest)) :
    t :: ts = inside ++ rest := by
  induction hn : ts.length using Nat.strongRecOn generalizing opened t ts inside with
  | ind n ih =>
    rw [plain_statementTokens] at h
    obtain ⟨inner, _, h⟩ := bind_eq_ok.1 h
    split at h
    · cases h
      rfl
    · split at h
      · rename_i u us hts
        obtain ⟨more, hmore, heq⟩ := map_eq_ok.1 h
        cases heq
        have hwhole := eq_of_afterTrivia hts
        have hlt : us.length < n := by
          have := congrArg List.length hwhole
          simp only [List.length_append, List.length_cons] at this
          omega
        rw [ih _ hlt hmore rfl] at hwhole
        simpa using hwhole
      · split at h
        · cases h
        · cases h
          simp

theorem statement_consumes {t : Token} {ts rest : List Token} {tree : Tree}
    (h : plain (statement t ts) = .ok (tree, rest)) : t :: ts = tree.tokens ++ rest := by
  rw [plain_statement] at h
  obtain ⟨inside, hinside, heq⟩ := map_eq_ok.1 h
  cases heq
  simpa using statementTokens_consumes hinside

theorem item_consumes {t : Token} {ts rest : List Token} {tree : Tree}
    (h : plain (item t ts) = .ok (tree, rest)) : t :: ts = tree.tokens ++ rest := by
  rw [plain_item] at h
  split at h
  · cases h
    rfl
  · split at h
    · split at h
      · rename_i r hdecl
        cases h
        exact declaration_consumes hdecl
      · cases h
      · exact statement_consumes h
    · exact statement_consumes h

theorem items_induction
    {motive : (ts : List Token) → (trees : List Tree) → items ts = .ok trees → Prop}
    (done : ∀ {ts} (h : items ts = .ok (leaves (trivia ts))), afterTrivia ts = [] →
      motive ts (leaves (trivia ts)) h)
    (next : ∀ {ts rest mid : List Token} {t : Token} {tree : Tree} {more : List Tree}
      (h : items ts = .ok (leaves (trivia ts) ++ tree :: more)), afterTrivia ts = t :: rest →
      plain (item t rest) = .ok (tree, mid) → (hmore : items mid = .ok more) →
      motive mid more hmore → motive ts (leaves (trivia ts) ++ tree :: more) h)
    {ts : List Token} {trees : List Tree} (h : items ts = .ok trees) : motive ts trees h := by
  induction hn : ts.length using Nat.strongRecOn generalizing ts trees with
  | ind n ih =>
    have hitems := h
    rw [items_eq] at hitems
    split at hitems
    · rename_i hafter
      cases hitems
      exact done h hafter
    · rename_i t rest hafter
      obtain ⟨⟨tree, mid⟩, hitem, hitems⟩ := bind_eq_ok.1 hitems
      obtain ⟨more, hmore, heq⟩ := map_eq_ok.1 hitems
      cases heq
      have hlt : mid.length < n := by
        have := length_lt_of_afterTrivia hafter
        have : mid.length < (t :: rest).length := length_lt_of_plain hitem
        rw [List.length_cons] at this
        omega
      exact next h hafter hitem hmore (ih _ hlt hmore rfl)

theorem items_consumes {ts : List Token} {trees : List Tree} (h : items ts = .ok trees) :
    Tree.tokensList trees = ts := by
  induction h using items_induction with
  | done _ hafter => simpa using (eq_of_afterTrivia hafter).symm
  | next _ hafter hitem _ ih =>
    have hwhole := eq_of_afterTrivia hafter
    rw [item_consumes hitem] at hwhole
    rw [Tree.tokensList_append, tokensList_leaves, Tree.tokensList_cons, ih]
    exact hwhole.symm

end PackageManifest.Proofs.Grammar
