import PackageManifest.Proofs.Grammar.Rebinding
import PackageManifest.Proofs.Grammar.WellMatched
import PackageManifest.Proofs.RoundTrip

/-!
# What the parser accepts

Main statement: `parse_accepts`. If the delimiters of a text match, the parser can refuse it only
for its nesting: each declaration and each statement ends where no delimiter is open, so what is
left behind it matches again. A text that does not lex is refused for its first fault.
-/

namespace PackageManifest.Proofs.Acceptance

open Source Grammar

theorem dueAfterAll_afterTrivia (due : List TokenKind) (ts : List Token) :
    dueAfterAll due (afterTrivia ts) = dueAfterAll due ts := by
  have hsplit := dueAfterAll_append due (trivia ts) (afterTrivia ts)
  rw [trivia_append_afterTrivia, (matched_trivia (allTrivia_trivia ts)).around] at hsplit
  exact hsplit.symm

theorem matched_afterTrivia {ts : List Token} : Matched (afterTrivia ts) ↔ Matched ts := by
  rw [Matched, Matched, dueAfterAll_afterTrivia]

theorem matched_of_append {ts us : List Token} (h : Matched (ts ++ us)) (hts : Matched ts) :
    Matched us := by
  rw [Matched, dueAfterAll_append, hts] at h
  exact h

/-! ## Declarations -/

theorem expectNext?_matched {kind : TokenKind} {ts inside rest : List Token}
    (hkind : isPlainKind kind = true)
    (h : plain? (expectNext? kind ts) = some (inside, rest)) : Matched inside := by
  rw [plain?_expectNext?] at h
  obtain ⟨⟨t, after⟩, ht, heq⟩ := Option.map_eq_some_iff.1 h
  cases heq
  have hplain : isPlainKind t.kind = true := by rw [(expect?_eq_some ht).2, hkind]
  exact (matched_trivia (allTrivia_trivia ts)).append (matched_single hplain)

theorem statementEnd?_matched {ts inside rest : List Token}
    (h : plain? (statementEnd? ts) = some (inside, rest)) : Matched inside := by
  rw [plain?_statementEnd?] at h
  split at h
  · rename_i hsemicolon
    cases h
    exact expectNext?_matched rfl hsemicolon
  · split at h
    · cases h
      exact matched_nil
    · cases h

theorem importPath_matched {ts inside rest : List Token}
    (h : plain? (importPath ts) = some (inside, rest)) : Matched inside := by
  induction hn : ts.length using Nat.strongRecOn generalizing ts inside with
  | ind n ih =>
    rw [plain?_importPath] at h
    split at h
    · cases h
      exact matched_nil
    · split at h
      · cases h
        exact matched_nil
      · rename_i dot hdot
        obtain ⟨name, hname, hmore⟩ := Option.bind_eq_some_iff.1 h
        obtain ⟨more, hpath, heq⟩ := Option.map_eq_some_iff.1 hmore
        cases heq
        have hlt : name.2.length < n := by
          have := length_lt_of_plain? hdot
          have := length_lt_of_plain? hname
          omega
        have hnames := (expectNext?_matched rfl hdot).append (expectNext?_matched rfl hname)
        exact hnames.append (ih _ hlt hpath rfl)

theorem importTail_matched {ts inside rest : List Token}
    (h : plain? (importTail ts) = some (inside, rest)) : Matched inside := by
  rw [plain?_importTail] at h
  obtain ⟨name, hname, h⟩ := Option.bind_eq_some_iff.1 h
  obtain ⟨path, hpath, h⟩ := Option.bind_eq_some_iff.1 h
  obtain ⟨last, hlast, heq⟩ := Option.map_eq_some_iff.1 h
  cases heq
  have hnames := (expectNext?_matched rfl hname).append (importPath_matched hpath)
  exact hnames.append (statementEnd?_matched hlast)

/-- A type only counts delimiters. As those of the whole match, the count is that of the ones due,
and the type ends when none is. -/
theorem typeTokens_matched {due : List TokenKind} {ts inside rest : List Token}
    (hts : dueAfterAll due ts = some [])
    (h : plain? (typeTokens due.length ts) = some (inside, rest)) :
    dueAfterAll due inside = some [] := by
  induction hn : ts.length using Nat.strongRecOn generalizing due ts inside with
  | ind n ih =>
    cases hafter : afterTrivia ts with
    | nil =>
      rw [plain?_typeTokens_nil hafter] at h
      cases h
    | cons t after =>
      rw [plain?_typeTokens_cons hafter] at h
      split at h
      · rename_i hend
        cases h
        rw [List.length_eq_zero_iff.1 hend.2]
        rfl
      · split at h
        · cases h
        · obtain ⟨more, hmore, heq⟩ := Option.map_eq_some_iff.1 h
          cases heq
          rw [← dueAfterAll_afterTrivia, hafter, dueAfterAll] at hts
          obtain ⟨next, hnext, hrest⟩ := Option.bind_eq_some_iff.1 hts
          have hdepth : depthBehind t.kind due.length = next.length :=
            depthBehind_of_dueAfter hnext 0
          have hlt : after.length < n := by
            have := congrArg List.length (eq_of_afterTrivia hafter)
            simp only [List.length_append, List.length_cons] at this
            omega
          rw [hdepth] at hmore
          rw [dueAfterAll_append, (matched_trivia (allTrivia_trivia ts)).around,
            Option.bind_some, dueAfterAll, hnext, Option.bind_some]
          exact ih _ hlt hrest hmore rfl

theorem typeClause_matched {ts rest : List Token} {trees : List Tree} (hts : Matched ts)
    (h : plain? (typeClause ts) = some (trees, rest)) : Matched (Tree.tokensList trees) := by
  rw [plain?_typeClause] at h
  split at h
  · cases h
    exact matched_nil
  · rename_i colon after hcolon
    obtain ⟨inside, htype, heq⟩ := Option.map_eq_some_iff.1 h
    cases heq
    obtain ⟨hafter, hkind⟩ := expect?_eq_some hcolon
    have hplain : Matched [colon] := matched_single (by rw [hkind]; rfl)
    rw [← matched_afterTrivia, hafter] at hts
    have hinside : Matched inside.1 := typeTokens_matched (matched_of_append hts hplain) htype
    have htokens : Tree.tokensList
        (leaves (trivia ts) ++ [.node .typeClause (leaves (colon :: inside.1))]) =
          trivia ts ++ ([colon] ++ inside.1) := by
      simp
    rw [htokens]
    exact (matched_trivia (allTrivia_trivia ts)).append (hplain.append hinside)

theorem bindingTail_matched {ts rest : List Token} {trees : List Tree} (hts : Matched ts)
    (h : plain (bindingTail ts) = .ok (trees, rest)) : Matched (Tree.tokensList trees) := by
  rw [plain_bindingTail] at h
  obtain ⟨name, hname, h⟩ := bind_eq_ok.1 h
  obtain ⟨type, htype, h⟩ := bind_eq_ok.1 h
  obtain ⟨equals, hequals, h⟩ := bind_eq_ok.1 h
  obtain ⟨value, hvalue, h⟩ := bind_eq_ok.1 h
  obtain ⟨last, hlast, heq⟩ := map_eq_ok.1 h
  cases heq
  have hnameMatched := expectNext?_matched rfl (refusing_eq_ok.1 hname)
  rw [expectNext?_consumes (refusing_eq_ok.1 hname)] at hts
  have htypeMatched :=
    typeClause_matched (matched_of_append hts hnameMatched) (refusing_eq_ok.1 htype)
  have hequalsMatched := expectNext?_matched rfl (refusing_eq_ok.1 hequals)
  have hvalueMatched := (expression_sound hvalue).1.matched
  have hlastMatched := statementEnd?_matched (refusing_eq_ok.1 hlast)
  have htokens : Tree.tokensList (leaves name.1 ++ type.1 ++ leaves equals.1 ++
      leaves (trivia equals.2) ++ value.1 :: leaves last.1) =
        name.1 ++ (Tree.tokensList type.1 ++ (equals.1 ++ (trivia equals.2 ++
          (value.1.tokens ++ last.1)))) := by
    simp
  rw [htokens]
  exact hnameMatched.append (htypeMatched.append (hequalsMatched.append
    ((matched_trivia (allTrivia_trivia _)).append (hvalueMatched.append hlastMatched))))

theorem isPlainKind_of_startsDeclaration {kind : TokenKind} (h : startsDeclaration kind = true) :
    isPlainKind kind = true := by
  cases kind <;> first | rfl | cases h

theorem declaration_matched {t : Token} {ts rest : List Token} {tree : Tree}
    (ht : isPlainKind t.kind = true) (hts : Matched (t :: ts))
    (h : plain (declaration (t :: ts)) = .ok (tree, rest)) : Matched tree.tokens := by
  have hfirst := matched_single ht
  rw [plain_declaration] at h
  split at h
  · obtain ⟨inside, himport, heq⟩ := map_eq_ok.1 h
    cases heq
    rw [Tree.tokens_node, tokensList_leaves]
    exact hfirst.append (importTail_matched (refusing_eq_ok.1 himport))
  · obtain ⟨inside, hbinding, heq⟩ := map_eq_ok.1 h
    cases heq
    rw [Tree.tokens_node, Tree.tokensList_cons]
    exact hfirst.append (bindingTail_matched (matched_of_append hts hfirst) hbinding)

/-! ## Statements -/

def Awaits (opened : List Opener) (due : List TokenKind) : Prop :=
  opened.map (fun opener => opener.token.kind.closing?) = due.map some

theorem awaits_nil {due : List TokenKind} (h : Awaits [] due) : due = [] :=
  List.map_eq_nil_iff.1 h.symm

theorem closes_of_closing? {opening close : TokenKind} (h : opening.closing? = some close) :
    close.isOpening = false ∧ close.isClosing = true := by
  cases opening <;> cases h <;> exact ⟨rfl, rfl⟩

theorem openAfter_awaits {opened : List Opener} {due next : List TokenKind} {t : Token}
    (h : Awaits opened due) (hnext : dueAfter due t.kind = some next) (ts : List Token) :
    ∃ inner, openAfter opened t ts = .ok inner ∧ Awaits inner next := by
  by_cases hplain : isPlainKind t.kind = true
  · rw [dueAfter_plain hplain] at hnext
    cases hnext
    simp only [isPlainKind, Bool.and_eq_true, Bool.not_eq_true'] at hplain
    exact ⟨opened, by simp [openAfter, hplain], h⟩
  · rcases dueAfter_cases (Bool.eq_false_iff.2 hplain) hnext with ⟨close, hclose, rfl⟩ | rfl
    · refine ⟨⟨t, ts⟩ :: opened, by simp [openAfter, TokenKind.isOpening, hclose], ?_⟩
      rw [Awaits, List.map_cons, List.map_cons, hclose, h]
    · cases opened with
      | nil => cases awaits_nil h
      | cons opener opened =>
        obtain ⟨hopener, hopened⟩ := List.cons.inj h
        have hcloses := closes_of_closing? hopener
        exact ⟨opened, by simp_all [openAfter], hopened⟩

/-- Tokens whose delimiters match are never refused, and a statement ends with none open. -/
theorem statementTokens_matched {opened : List Opener} {due : List TokenKind} {t : Token}
    {ts : List Token} (hopened : Awaits opened due) (h : dueAfterAll due (t :: ts) = some []) :
    ∃ r, plain (statementTokens opened t ts) = .ok r ∧ dueAfterAll due r.1 = some [] := by
  obtain ⟨n, hn⟩ : ∃ n, ts.length = n := ⟨_, rfl⟩
  induction n using Nat.strongRecOn generalizing opened due t ts with
  | ind n ih =>
    rw [dueAfterAll] at h
    obtain ⟨next, hnext, hrest⟩ := Option.bind_eq_some_iff.1 h
    obtain ⟨inner, hinner, hawaits⟩ := openAfter_awaits hopened hnext ts
    rw [plain_statementTokens, hinner, Except.bind]
    split
    · rename_i hend
      simp only [Bool.and_eq_true, List.isEmpty_iff] at hend
      rw [hend.1] at hawaits
      refine ⟨_, rfl, ?_⟩
      rw [dueAfterAll, hnext, awaits_nil hawaits]
      rfl
    · split
      · rename_i u us hafter
        have hlt : us.length < n := by
          have := congrArg List.length (eq_of_afterTrivia hafter)
          simp only [List.length_append, List.length_cons] at this
          omega
        rw [← dueAfterAll_afterTrivia, hafter] at hrest
        obtain ⟨r, hr, hdue⟩ := ih _ hlt hawaits hrest rfl
        refine ⟨(t :: trivia ts ++ r.1, r.2), by rw [hr]; rfl, ?_⟩
        rw [List.cons_append, dueAfterAll, hnext, Option.bind_some, dueAfterAll_append,
          (matched_trivia (allTrivia_trivia ts)).around]
        exact hdue
      · rename_i hafter
        rw [← dueAfterAll_afterTrivia, hafter] at hrest
        cases hrest
        cases inner with
        | cons opener more => cases hawaits
        | nil =>
          refine ⟨_, rfl, ?_⟩
          rw [dueAfterAll, hnext, Option.bind_some, ← dueAfterAll_afterTrivia, hafter]
          rfl

theorem statement_matched {t : Token} {ts : List Token} (h : Matched (t :: ts)) :
    ∃ r, plain (statement t ts) = .ok r ∧ Matched r.1.tokens := by
  have hnone : Awaits [] [] := rfl
  obtain ⟨r, hr, hmatched⟩ := statementTokens_matched hnone h
  refine ⟨(.node .statement (leaves r.1), r.2), by rw [plain_statement, hr]; rfl, ?_⟩
  rw [Tree.tokens_node, tokensList_leaves]
  exact hmatched

/-! ## Items -/

theorem item_matched {t : Token} {ts : List Token} (h : Matched (t :: ts)) :
    (∃ r, plain (item t ts) = .ok r ∧ Matched r.2) ∨
      ∃ ahead, plain (item t ts) = .error ⟨.tooDeep maxNesting, ahead⟩ := by
  have rest_of {r : Tree × List Token} (hconsumes : t :: ts = r.1.tokens ++ r.2)
      (hmatched : Matched r.1.tokens) : Matched r.2 := by
    rw [hconsumes] at h
    exact matched_of_append h hmatched
  have statement_ok : ∃ r, plain (statement t ts) = .ok r ∧ Matched r.2 := by
    obtain ⟨r, hr, hmatched⟩ := statement_matched h
    exact ⟨r, hr, rest_of (statement_consumes hr) hmatched⟩
  rw [plain_item]
  split
  · rename_i hsemicolon
    have ht : Matched [t] := matched_single (by rw [hsemicolon]; rfl)
    exact .inl ⟨_, rfl, matched_of_append h ht⟩
  · split
    · rename_i hstarts
      split
      · rename_i r hdecl
        have hplain := isPlainKind_of_startsDeclaration hstarts
        have hmatched := declaration_matched hplain h hdecl
        exact .inl ⟨r, rfl, rest_of (declaration_consumes hdecl) hmatched⟩
      · rename_i ahead _
        exact .inr ⟨ahead, rfl⟩
      · exact .inl statement_ok
    · exact .inl statement_ok

theorem items_matched {ts : List Token} (h : Matched ts) :
    (∃ trees, items ts = .ok trees) ∨
      ∃ ahead, items ts = .error ⟨.tooDeep maxNesting, ahead⟩ := by
  induction hn : ts.length using Nat.strongRecOn generalizing ts with
  | ind n ih =>
    rw [items_eq]
    split
    · exact .inl ⟨_, rfl⟩
    · rename_i t rest hafter
      rw [← matched_afterTrivia, hafter] at h
      rcases item_matched h with ⟨r, hr, hrest⟩ | ⟨ahead, hdeep⟩
      · have hlt : r.2.length < n := by
          have := congrArg List.length (eq_of_afterTrivia hafter)
          have := length_lt_of_plain hr
          simp only [List.length_append, List.length_cons] at *
          omega
        rw [hr, Except.bind]
        rcases ih _ hlt hrest rfl with ⟨more, hmore⟩ | ⟨ahead, hdeep⟩
        · exact .inl ⟨_, by rw [hmore]; rfl⟩
        · exact .inr ⟨ahead, by rw [hdeep]; rfl⟩
      · exact .inr ⟨ahead, by rw [hdeep]; rfl⟩

/-! ## Refusals -/

def Structural (cause : Cause) : Prop := ∀ fault, cause ≠ .lexical fault

theorem openAfter_structural {opened : List Opener} {t : Token} {ts : List Token} {e : Trouble}
    (h : openAfter opened t ts = .error e) : Structural e.cause := by
  unfold openAfter at h
  split at h
  · cases h
  · split at h
    · split at h
      · cases h
        exact fun _ => Cause.noConfusion
      · split at h
        · cases h
        · cases h
          exact fun _ => Cause.noConfusion
    · cases h

theorem statementTokens_structural {opened : List Opener} {t : Token} {ts : List Token}
    {e : Trouble} (h : plain (statementTokens opened t ts) = .error e) :
    Structural e.cause := by
  obtain ⟨n, hn⟩ : ∃ n, ts.length = n := ⟨_, rfl⟩
  induction n using Nat.strongRecOn generalizing opened t ts with
  | ind n ih =>
    rw [plain_statementTokens] at h
    rcases bind_eq_error.1 h with hopen | ⟨inner, _, h⟩
    · exact openAfter_structural hopen
    · split at h
      · cases h
      · split at h
        · rename_i u us hafter
          have hlt : us.length < n := by
            have := congrArg List.length (eq_of_afterTrivia hafter)
            simp only [List.length_append, List.length_cons] at this
            omega
          exact ih us.length hlt (error_of_map h) rfl
        · split at h
          · cases h
            exact fun _ => Cause.noConfusion
          · cases h

theorem item_structural {t : Token} {ts : List Token} {e : Trouble}
    (h : plain (item t ts) = .error e) : Structural e.cause := by
  have of_statement (h : plain (statement t ts) = .error e) : Structural e.cause := by
    rw [plain_statement] at h
    exact statementTokens_structural (error_of_map h)
  rw [plain_item] at h
  split at h
  · cases h
  · split at h
    · split at h
      · cases h
      · cases h
        exact fun _ => Cause.noConfusion
      · exact of_statement h
    · exact of_statement h

theorem items_structural {ts : List Token} {e : Trouble} (h : items ts = .error e) :
    Structural e.cause := by
  induction hn : ts.length using Nat.strongRecOn generalizing ts with
  | ind n ih =>
    rw [items_eq] at h
    split at h
    · cases h
    · rename_i t rest hafter
      rcases bind_eq_error.1 h with hitem | ⟨r, hr, h⟩
      · exact item_structural hitem
      · have hlt : r.2.length < n := by
          have := congrArg List.length (eq_of_afterTrivia hafter)
          have := length_lt_of_plain hr
          simp only [List.length_append, List.length_cons] at *
          omega
        exact ih _ hlt (error_of_map h) rfl

/-! ## Texts -/

theorem parse_of_faults {source : String} {fault : Fault} {more : List Fault}
    (h : faults source.toList = fault :: more) :
    parse source = .error (.ofFault source.toList fault) := by
  rw [parse, parseText, h]

theorem parse_of_no_faults {source : String} (h : faults source.toList = []) :
    parse source = parseTokens source.toList (tokens source.toList) := by
  rw [parse, parseText, h]

theorem parse_of_matched {source : String} (hfaults : faults source.toList = [])
    (h : Matched (tokens source.toList)) :
    (∃ tree, parse source = .ok tree) ∨
      ∃ e, parse source = .error e ∧ e.cause = .tooDeep maxNesting := by
  rw [parse_of_no_faults hfaults, parseTokens]
  rcases items_matched h with ⟨trees, htrees⟩ | ⟨ahead, hdeep⟩
  · rw [htrees]
    exact .inl ⟨_, rfl⟩
  · rw [hdeep]
    exact .inr ⟨_, rfl, rfl⟩

theorem parse_lexical_iff (source : String) :
    (∃ e cause, parse source = .error e ∧ e.cause = .lexical cause) ↔
      faults source.toList ≠ [] := by
  constructor
  · rintro ⟨e, cause, he, hcause⟩ hfaults
    rw [parse_of_no_faults hfaults, parseTokens] at he
    split at he
    · rename_i trouble htrouble
      cases he
      exact items_structural htrouble cause hcause
    · cases he
  · intro hfaults
    obtain ⟨fault, more, hfault⟩ := List.exists_cons_of_ne_nil hfaults
    exact ⟨_, fault.cause, parse_of_faults hfault, rfl⟩

/-- A text without faults whose delimiters match is parsed unless it nests too deeply, and exactly
the texts with faults are refused as such, with the message and the place of the first one. -/
theorem parse_accepts (source : String) :
    (faults source.toList = [] → WellMatched (delimiters (tokens source.toList)) →
      (∃ tree, parse source = .ok tree) ∨
        ∃ e, parse source = .error e ∧ e.cause = .tooDeep maxNesting) ∧
    ((∃ e cause, parse source = .error e ∧ e.cause = .lexical cause) ↔
      faults source.toList ≠ []) ∧
    ∀ fault more, faults source.toList = fault :: more →
      ∃ e, parse source = .error e ∧ e.cause = .lexical fault.cause ∧
        e.message = fault.cause.message ∧ e.span = fault.span source.toList := by
  refine ⟨fun hfaults hmatched => ?_, parse_lexical_iff source, fun fault more hfaults => ?_⟩
  · exact parse_of_matched hfaults (matched_iff.2 hmatched)
  · exact ⟨_, parse_of_faults hfaults, rfl, rfl, rfl⟩

/-- A type with delimiters, a declaration that no rule reads and a block over two lines, and a
string that is never closed. -/
theorem parse_accepts_statements_and_open_string :
    ((∃ tree, parse "let a: [Int: (B, C)] = f x[1]\nfunc g() \x7b\n  (1)\n\x7d" = .ok tree) ∨
      ∃ e, parse "let a: [Int: (B, C)] = f x[1]\nfunc g() \x7b\n  (1)\n\x7d" = .error e ∧
        e.cause = .tooDeep maxNesting) ∧
    ∃ e, parse "(\"a" = .error e ∧ e.cause = .lexical .openString ∧
      e.message = "Unterminated string literal" ∧ e.span = ⟨1, 3⟩ := by
  refine ⟨(parse_accepts _).1 (by decide +kernel) (by decide +kernel), ?_⟩
  exact (parse_accepts "(\"a").2.2 ⟨.openString, ['\"', 'a'], []⟩ [] (by decide +kernel)

end PackageManifest.Proofs.Acceptance
