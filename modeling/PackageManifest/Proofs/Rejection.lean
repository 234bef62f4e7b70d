import PackageManifest.Proofs.Acceptance
import PackageManifest.Proofs.Grammar.Slots

/-!
# What a parsed text has matched

Main statement: `parse_delimiters`. Whatever the parser accepts closes as many delimiters as it
opens and never closes one that is not open. Statements, blocks and lists also tell the kinds of
delimiters apart, but a type only counts its delimiters. So those of the whole text match exactly
if those of every type do.
-/

namespace PackageManifest.Proofs.Rejection

open Source Grammar Acceptance

/-! ## Delimiters without their kinds -/

def roundKind (kind : TokenKind) : TokenKind :=
  if kind.isOpening then .lParen else if kind.isClosing then .rParen else kind

def rounded (t : Token) : Token := { t with kind := roundKind t.kind }

theorem dueAfter_rounded {due next : List TokenKind} {kind : TokenKind}
    (h : dueAfter due kind = some next) :
    dueAfter (due.map roundKind) (roundKind kind) = some (next.map roundKind) := by
  by_cases hplain : isPlainKind kind = true
  · have hround : roundKind kind = kind := by cases kind <;> first | rfl | cases hplain
    rw [dueAfter_plain hplain] at h
    cases h
    rw [hround, dueAfter_plain hplain]
  · rcases dueAfter_cases (Bool.eq_false_iff.2 hplain) h with ⟨close, hclose, rfl⟩ | rfl
    · cases kind <;> cases hclose <;> rfl
    · cases kind <;> first | rfl | exact absurd rfl hplain | cases h

theorem dueAfterAll_rounded {due next : List TokenKind} {ts : List Token}
    (h : dueAfterAll due ts = some next) :
    dueAfterAll (due.map roundKind) (ts.map rounded) = some (next.map roundKind) := by
  induction ts generalizing due with
  | nil =>
    cases h
    rfl
  | cons t ts ih =>
    rw [dueAfterAll] at h
    obtain ⟨inner, hinner, hmore⟩ := Option.bind_eq_some_iff.1 h
    rw [List.map_cons, dueAfterAll, rounded, dueAfter_rounded hinner, Option.bind_some]
    exact ih hmore

/-- The delimiters match if their kinds are left aside. -/
def Balanced (ts : List Token) : Prop := Matched (ts.map rounded)

theorem balanced_of_matched {ts : List Token} (h : Matched ts) : Balanced ts :=
  dueAfterAll_rounded h

theorem Balanced.append {ts us : List Token} (hts : Balanced ts) (hus : Balanced us) :
    Balanced (ts ++ us) := by
  rw [Balanced, List.map_append]
  exact Matched.append hts hus

/-- Both stacks have the same height, so they are empty behind the same tokens. -/
theorem Balanced.matched {ts us : List Token} (hts : Balanced ts) (h : Matched (ts ++ us)) :
    Matched ts := by
  rw [Matched, dueAfterAll_append] at h
  obtain ⟨next, hnext, _⟩ := Option.bind_eq_some_iff.1 h
  have hround : dueAfterAll [] (ts.map rounded) = some (next.map roundKind) :=
    dueAfterAll_rounded hnext
  rw [hts] at hround
  have hnil : next = [] := List.map_eq_nil_iff.1 (Option.some.inj hround).symm
  rw [Matched, hnext, hnil]

/-! ## What types leave open -/

/-- The tokens are balanced, and they match exactly if those of some of their trees do. -/
structure Guarded (ts : List Token) (types : List Tree) : Prop where
  balanced : Balanced ts
  matched_iff : Matched ts ↔ ∀ type ∈ types, Matched type.tokens

theorem guarded_of_matched {ts : List Token} (h : Matched ts) : Guarded ts [] :=
  ⟨balanced_of_matched h, fun _ _ hmem => (List.not_mem_nil hmem).elim, fun _ => h⟩

theorem Guarded.append {ts us : List Token} {types more : List Tree} (hts : Guarded ts types)
    (hus : Guarded us more) : Guarded (ts ++ us) (types ++ more) := by
  refine ⟨hts.balanced.append hus.balanced, fun h => ?_, fun h => ?_⟩
  · have hleft := hts.balanced.matched h
    have hright := matched_of_append h hleft
    intro type hmem
    rcases List.mem_append.1 hmem with hmem | hmem
    · exact hts.matched_iff.1 hleft type hmem
    · exact hus.matched_iff.1 hright type hmem
  · have hleft := hts.matched_iff.2 fun type hmem => h type (List.mem_append_left _ hmem)
    have hright := hus.matched_iff.2 fun type hmem => h type (List.mem_append_right _ hmem)
    exact hleft.append hright

theorem guarded_type {type : Tree} (h : Balanced type.tokens) : Guarded type.tokens [type] :=
  ⟨h, by simp⟩

theorem dueAfter_replicate {depth : Nat} {kind : TokenKind}
    (h : ¬(kind.isClosing = true ∧ depth = 0)) :
    dueAfter (List.replicate depth .rParen) (roundKind kind) =
      some (List.replicate (depthBehind kind depth) .rParen) := by
  cases depth with
  | zero => cases kind <;> first | rfl | exact absurd ⟨rfl, rfl⟩ h
  | succ depth => cases kind <;> rfl

/-- A type ends when as many delimiters are closed as are open. -/
theorem typeTokens_balanced {depth : Nat} {ts inside rest : List Token}
    (h : plain? (typeTokens depth ts) = some (inside, rest)) :
    dueAfterAll (List.replicate depth .rParen) (inside.map rounded) = some [] := by
  induction hn : ts.length using Nat.strongRecOn generalizing depth ts inside with
  | ind n ih =>
    cases hafter : afterTrivia ts with
    | nil =>
      rw [plain?_typeTokens_nil hafter] at h
      cases h
    | cons t after =>
      rw [plain?_typeTokens_cons hafter] at h
      split at h
      · rename_i hend
        cases h
        rw [hend.2]
        rfl
      · split at h
        · cases h
        · rename_i hopen
          obtain ⟨more, hmore, heq⟩ := Option.map_eq_some_iff.1 h
          cases heq
          have hlt : after.length < n := hn ▸ length_lt_of_afterTrivia hafter
          have htrivia := balanced_of_matched (matched_trivia (allTrivia_trivia ts))
          rw [List.map_append, dueAfterAll_append, Matched.around htrivia, Option.bind_some,
            List.map_cons, dueAfterAll, rounded, dueAfter_replicate hopen, Option.bind_some]
          exact ih _ hlt hmore rfl

theorem typeClause_guarded {ts rest : List Token} {trees : List Tree}
    (h : plain? (typeClause ts) = some (trees, rest)) :
    Guarded (Tree.tokensList trees) (trees.filter (Tree.isNode .typeClause)) := by
  rw [plain?_typeClause] at h
  split at h
  · cases h
    exact guarded_of_matched matched_nil
  · rename_i colon after hcolon
    obtain ⟨inside, htype, heq⟩ := Option.map_eq_some_iff.1 h
    cases heq
    have hcolon : Matched [colon] := matched_single (by rw [(expect?_eq_some hcolon).2]; rfl)
    have hinside : Balanced inside.1 := typeTokens_balanced htype
    have htype : Balanced (Source.Tree.node .typeClause (leaves (colon :: inside.1))).tokens := by
      rw [Tree.tokens_node, tokensList_leaves]
      exact (balanced_of_matched hcolon).append hinside
    have hguarded := (guarded_of_matched (matched_trivia (allTrivia_trivia ts))).append
      (guarded_type htype)
    simpa using hguarded

/-! ## Declarations -/

theorem bindingTail_guarded {ts rest : List Token} {trees : List Tree}
    (h : plain (bindingTail ts) = .ok (trees, rest)) :
    Guarded (Tree.tokensList trees) (trees.filter (Tree.isNode .typeClause)) := by
  rw [plain_bindingTail] at h
  obtain ⟨name, hname, h⟩ := bind_eq_ok.1 h
  obtain ⟨type, htype, h⟩ := bind_eq_ok.1 h
  obtain ⟨equals, hequals, h⟩ := bind_eq_ok.1 h
  obtain ⟨value, hvalue, h⟩ := bind_eq_ok.1 h
  obtain ⟨last, hlast, heq⟩ := map_eq_ok.1 h
  cases heq
  have hexpr := (expression_sound hvalue).1
  have hvalueType : value.1.isNode .typeClause = false := by
    rw [Bool.eq_false_iff]
    intro hnode
    have hkind := hexpr.isExpr
    rw [Tree.eq_node_of_isNode hnode] at hkind
    cases hkind
  have hname := expectNext?_matched rfl (refusing_eq_ok.1 hname)
  have hequals := expectNext?_matched rfl (refusing_eq_ok.1 hequals)
  have hbehind := (matched_trivia (allTrivia_trivia equals.2)).append
    (hexpr.matched.append (statementEnd?_matched (refusing_eq_ok.1 hlast)))
  have hguarded := (guarded_of_matched hname).append
    ((typeClause_guarded (refusing_eq_ok.1 htype)).append
      (guarded_of_matched (hequals.append hbehind)))
  simpa [hvalueType] using hguarded

def typesOf (item : Tree) : List Tree :=
  if item.isNode .variableDecl then item.children.filter (Tree.isNode .typeClause) else []

theorem flatMap_typesOf_leaves (ts : List Token) : (leaves ts).flatMap typesOf = [] := by
  rw [List.flatMap_eq_nil_iff]
  intro tree hmem
  obtain ⟨t, _, rfl⟩ := Tree.eq_token_of_mem_leaves hmem
  rfl

/-! ## Statements -/

theorem dueAfter_of_openAfter {opened inner : List Opener} {due : List TokenKind} {t : Token}
    {ts : List Token} (h : Awaits opened due) (hinner : openAfter opened t ts = .ok inner) :
    ∃ next, dueAfter due t.kind = some next ∧ Awaits inner next := by
  unfold openAfter at hinner
  split at hinner
  · rename_i hopening
    cases hinner
    obtain ⟨close, hclose⟩ := Option.isSome_iff_exists.1 hopening
    refine ⟨close :: due, dueAfter_opening hclose due, ?_⟩
    rw [Awaits, List.map_cons, List.map_cons, hclose, h]
  · rename_i hopening
    split at hinner
    · split at hinner
      · cases hinner
      · rename_i opener opened
        split at hinner
        · rename_i hcloses
          cases hinner
          -- The next delimiter due is the one that closes the last open one.
          cases due with
          | nil => cases h
          | cons close due =>
            obtain ⟨hclose, hrest⟩ := List.cons.inj h
            obtain rfl : t.kind = close := Option.some.inj (hcloses.symm.trans hclose)
            exact ⟨due, dueAfter_close hcloses due, hrest⟩
        · cases hinner
    · rename_i hclosing
      cases hinner
      have hplain : isPlainKind t.kind = true := by simp [isPlainKind, hopening, hclosing]
      exact ⟨due, dueAfter_plain hplain due, h⟩

theorem statementTokens_closed {opened : List Opener} {due : List TokenKind} {t : Token}
    {ts inside rest : List Token} (hopened : Awaits opened due)
    (h : plain (statementTokens opened t ts) = .ok (inside, rest)) :
    dueAfterAll due inside = some [] := by
  induction hn : ts.length using Nat.strongRecOn generalizing opened due t ts inside with
  | ind n ih =>
    rw [plain_statementTokens] at h
    obtain ⟨inner, hinner, h⟩ := bind_eq_ok.1 h
    obtain ⟨next, hnext, hawaits⟩ := dueAfter_of_openAfter hopened hinner
    split at h
    · rename_i hend
      cases h
      simp only [Bool.and_eq_true, List.isEmpty_iff] at hend
      rw [hend.1] at hawaits
      rw [dueAfterAll, hnext, awaits_nil hawaits]
      rfl
    · split at h
      · rename_i u us hafter
        obtain ⟨more, hmore, heq⟩ := map_eq_ok.1 h
        cases heq
        have hlt : us.length < n := hn ▸ length_lt_of_afterTrivia hafter
        rw [List.cons_append, dueAfterAll, hnext, Option.bind_some, dueAfterAll_append,
          (matched_trivia (allTrivia_trivia ts)).around]
        exact ih _ hlt hawaits hmore rfl
      · rename_i hafter
        split at h
        · cases h
        · cases h
          rw [dueAfterAll, hnext, awaits_nil hawaits, Option.bind_some,
            ← dueAfterAll_afterTrivia, hafter]
          rfl

/-! ## Manifests -/

theorem item_guarded {t : Token} {ts rest : List Token} {tree : Tree}
    (h : plain (item t ts) = .ok (tree, rest)) : Guarded tree.tokens (typesOf tree) := by
  cases itemOf_of_item h with
  | semicolon hkind => exact guarded_of_matched (matched_single (by rw [hkind]; rfl))
  | importDecl hkind himport =>
    have hfirst : Matched [t] := matched_single (by rw [hkind]; rfl)
    rw [Tree.tokens_node, tokensList_leaves]
    exact guarded_of_matched (hfirst.append (importTail_matched himport))
  | binding hstarts _ hbinding =>
    have hfirst := guarded_of_matched (matched_single (isPlainKind_of_startsDeclaration hstarts))
    simpa [typesOf] using hfirst.append (bindingTail_guarded hbinding)
  | statement hinside =>
    have hnone : Awaits [] [] := rfl
    rw [Tree.tokens_node, tokensList_leaves]
    exact guarded_of_matched (statementTokens_closed hnone hinside)

theorem items_guarded {ts : List Token} {trees : List Tree} (h : items ts = .ok trees) :
    Guarded (Tree.tokensList trees) (trees.flatMap typesOf) := by
  have hleading (ts : List Token) : Guarded (trivia ts) [] :=
    guarded_of_matched (matched_trivia (allTrivia_trivia ts))
  induction h using items_induction with
  | done _ _ =>
    rw [tokensList_leaves, flatMap_typesOf_leaves]
    exact hleading _
  | next _ _ hitem _ ih =>
    rw [Tree.tokensList_append, tokensList_leaves, Tree.tokensList_cons, List.flatMap_append,
      flatMap_typesOf_leaves, List.flatMap_cons]
    exact (hleading _).append ((item_guarded hitem).append ih)

def bindingTypes (root : Tree) : List Tree :=
  root.bindings.flatMap fun binding => binding.children.filter (Tree.isNode .typeClause)

theorem bindingTypes_node (children : List Tree) :
    bindingTypes (.node .sourceFile children) = children.flatMap typesOf := by
  rw [bindingTypes, Tree.bindings, Tree.children_node]
  induction children with
  | nil => rfl
  | cons item more ih =>
    rw [List.flatMap_cons, ← ih, typesOf, List.filter_cons]
    split
    · rw [List.flatMap_cons]
    · rfl

/-- The delimiters of a parsed text match if their kinds are left aside. They match with their
kinds exactly if they do so in the type of every binding, as nothing else leaves that open. -/
theorem parse_delimiters {source : String} {tree : Tree} (h : parse source = .ok tree) :
    WellMatched (delimiters ((tokens source.toList).map rounded)) ∧
      (WellMatched (delimiters (tokens source.toList)) ↔
        ∀ type ∈ bindingTypes tree, WellMatched (delimiters type.tokens)) := by
  obtain ⟨_, children, hitems, rfl⟩ := RoundTrip.parseText_eq_ok_iff.1 h
  have hguarded := items_guarded hitems
  rw [items_consumes hitems, ← bindingTypes_node] at hguarded
  refine ⟨matched_iff.1 hguarded.balanced, ?_⟩
  simp only [← matched_iff]
  exact hguarded.matched_iff

/-- A type in which a bracket closes a parenthesis, between brackets that match. -/
theorem parse_delimiters_mismatched_type :
    ∃ tree, parse "import B; let x: (Int] = [f(1)]" = .ok tree ∧
      WellMatched (delimiters ((tokens "import B; let x: (Int] = [f(1)]".toList).map rounded)) ∧
      ∃ type ∈ bindingTypes tree, ¬WellMatched (delimiters type.tokens) := by
  have hparse : (parse "import B; let x: (Int] = [f(1)]").isOk = true := by decide +kernel
  obtain ⟨tree, htree⟩ := RoundTrip.exists_of_isOk hparse
  obtain ⟨hbalanced, hiff⟩ := parse_delimiters htree
  have hmismatch :
      ¬WellMatched (delimiters (tokens "import B; let x: (Int] = [f(1)]".toList)) := by
    decide +kernel
  rw [hiff] at hmismatch
  simp only [Classical.not_forall] at hmismatch
  obtain ⟨type, hmem, htype⟩ := hmismatch
  exact ⟨tree, htree, hbalanced, type, hmem, htype⟩

/-- Not every text that is parsed is well matched. -/
theorem parse_accepts_mismatched_type :
    ∃ tree, parse "let x: (] = 1" = .ok tree ∧
      ¬WellMatched (delimiters (tokens "let x: (] = 1".toList)) := by
  have hparse : (parse "let x: (] = 1").isOk = true := by decide +kernel
  obtain ⟨tree, htree⟩ := RoundTrip.exists_of_isOk hparse
  exact ⟨tree, htree, by decide +kernel⟩

end PackageManifest.Proofs.Rejection
