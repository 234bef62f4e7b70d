import PackageManifest.Proofs.Grammar.Nodes
import PackageManifest.Proofs.Grammar.Rebinding
import PackageManifest.Proofs.RoundTrip
import PackageManifest.Proofs.Sites

/-!
# Where a type ends

Main statement: `type_of_parse`. The type of a binding ends in front of the first equals sign that
stands outside of delimiters behind its colon. So it holds the start of another declaration exactly
if that start comes before such a sign, which is then the sign of the other declaration.
-/

namespace PackageManifest.Proofs.Types

open Source Grammar

/-! ## Outside of delimiters -/

/-- The delimiters open behind some tokens, of which `depth` are open before them. -/
def depthAfter (depth : Nat) (ts : List Token) : Nat :=
  ts.foldl (fun depth t => depthBehind t.kind depth) depth

theorem depthAfter_cons (depth : Nat) (t : Token) (ts : List Token) :
    depthAfter depth (t :: ts) = depthAfter (depthBehind t.kind depth) ts := rfl

theorem depthAfter_append (depth : Nat) (ts us : List Token) :
    depthAfter depth (ts ++ us) = depthAfter (depthAfter depth ts) us := List.foldl_append

theorem depthAfter_of_allTrivia {ts : List Token} (h : AllTrivia ts) (depth : Nat) :
    depthAfter depth ts = depth := by
  induction ts with
  | nil => rfl
  | cons t ts ih =>
    rw [depthAfter_cons, depthBehind_of_isTrivia (h t (List.mem_cons_self ..))]
    exact ih h.tail

/-- No equals sign stands outside of delimiters. -/
def NoEquals (depth : Nat) (ts : List Token) : Prop :=
  ∀ before t after, ts = before ++ t :: after → depthAfter depth before = 0 → t.kind ≠ .equals

theorem noEquals_nil (depth : Nat) : NoEquals depth [] := by
  intro before t after h
  cases before <;> cases h

theorem noEquals_cons {depth : Nat} {t : Token} {ts : List Token} :
    NoEquals depth (t :: ts) ↔
      (depth = 0 → t.kind ≠ .equals) ∧ NoEquals (depthBehind t.kind depth) ts := by
  constructor
  · intro h
    refine ⟨h [] t ts rfl, fun before u after hsplit hdepth => ?_⟩
    exact h (t :: before) u after (by rw [hsplit]; rfl) hdepth
  · rintro ⟨hfirst, hmore⟩ before u after hsplit hdepth
    cases before with
    | nil =>
      obtain ⟨rfl, _⟩ := List.cons.inj hsplit
      exact hfirst hdepth
    | cons v before =>
      obtain ⟨rfl, hrest⟩ := List.cons.inj hsplit
      exact hmore before u after hrest hdepth

theorem noEquals_append_of_allTrivia {depth : Nat} {ts us : List Token} (hts : AllTrivia ts)
    (hus : NoEquals depth us) : NoEquals depth (ts ++ us) := by
  induction ts with
  | nil => exact hus
  | cons t ts ih =>
    have ht : t.isTrivia = true := hts t (List.mem_cons_self ..)
    rw [List.cons_append, noEquals_cons, depthBehind_of_isTrivia ht]
    refine ⟨fun _ hequals => ?_, ih hts.tail⟩
    rw [Token.isTrivia, hequals] at ht
    cases ht

/-- A type closes what is open, and goes on where an equals sign stands in delimiters. -/
theorem typeTokens_ends {depth : Nat} {ts inside rest : List Token}
    (h : plain? (typeTokens depth ts) = some (inside, rest)) :
    depthAfter depth inside = 0 ∧ NoEquals depth inside := by
  induction hn : ts.length using Nat.strongRecOn generalizing depth ts inside with
  | ind n ih =>
    cases hafter : afterTrivia ts with
    | nil =>
      rw [plain?_typeTokens_nil hafter] at h
      cases h
    | cons t after =>
      rw [plain?_typeTokens_cons hafter] at h
      split at h
      · rename_i hend
        cases h
        exact ⟨hend.2, noEquals_nil depth⟩
      · rename_i hequals
        split at h
        · cases h
        · obtain ⟨more, hmore, heq⟩ := Option.map_eq_some_iff.1 h
          cases heq
          have hlt : after.length < n := hn ▸ length_lt_of_afterTrivia hafter
          obtain ⟨hclosed, hnone⟩ := ih _ hlt hmore rfl
          have htrivia := allTrivia_trivia ts
          rw [depthAfter_append, depthAfter_of_allTrivia htrivia, depthAfter_cons]
          refine ⟨hclosed, noEquals_append_of_allTrivia htrivia (noEquals_cons.2 ⟨?_, hnone⟩)⟩
          exact fun hdepth hkind => hequals ⟨hkind, hdepth⟩

/-! ## Declarations in a type -/

/-- Behind the tokens `before`, the keyword of a declaration is the first significant token of a
line and stands outside of delimiters. -/
def OpensDeclaration (before : List Token) (t : Token) : Prop :=
  startsDeclaration t.kind = true ∧ depthAfter 0 before = 0 ∧
    (before.reverse.takeWhile Token.isTrivia).any Token.breaksLine = true

def HoldsDeclaration (ts : List Token) : Prop :=
  ∃ before t after, ts = before ++ t :: after ∧ OpensDeclaration before t

/-- An equals sign outside of delimiters comes before the start of any declaration. -/
def Initialized (ts : List Token) : Prop :=
  ∃ before t after, ts = before ++ t :: after ∧ t.kind = .equals ∧ depthAfter 0 before = 0 ∧
    ¬HoldsDeclaration before

theorem isTrivia_of_startsDeclaration {kind : TokenKind} (h : startsDeclaration kind = true) :
    kind.isTrivia = false := by
  cases kind <;> first | rfl | cases h

theorem HoldsDeclaration.append {ts : List Token} (h : HoldsDeclaration ts) (us : List Token) :
    HoldsDeclaration (ts ++ us) := by
  obtain ⟨before, t, after, rfl, hopens⟩ := h
  exact ⟨before, t, after ++ us, by simp, hopens⟩

theorem split_append {ts us before after : List Token} {t : Token}
    (h : ts ++ us = before ++ t :: after) :
    (∃ more, ts = before ++ t :: more) ∨ ∃ more, before = ts ++ more ∧ us = more ++ t :: after := by
  rcases List.append_eq_append_iff.1 h with ⟨more, hbefore, hus⟩ | ⟨more, hts, hafter⟩
  · exact .inr ⟨more, hbefore, hus⟩
  · cases more with
    | nil => exact .inr ⟨[], by rw [hts, List.append_nil, List.append_nil], hafter.symm⟩
    | cons u more =>
      obtain ⟨rfl, _⟩ := List.cons.inj hafter
      exact .inl ⟨more, hts⟩

theorem holdsDeclaration_of_append {ts gap : List Token} (hgap : AllTrivia gap)
    (h : HoldsDeclaration (ts ++ gap)) : HoldsDeclaration ts := by
  obtain ⟨before, t, after, hsplit, hopens⟩ := h
  rcases split_append hsplit with ⟨more, hts⟩ | ⟨more, _, rfl⟩
  · exact ⟨before, t, more, hts, hopens⟩
  · have ht := hgap t (by simp)
    rw [Token.isTrivia, isTrivia_of_startsDeclaration hopens.1] at ht
    cases ht

/-- The tokens `ts` are a type that ends in front of the first equals sign outside of delimiters. -/
structure EndsBefore (ts behind : List Token) : Prop where
  closed : depthAfter 0 ts = 0
  noEquals : NoEquals 0 ts
  equals : ∃ gap sign rest, behind = gap ++ sign :: rest ∧ AllTrivia gap ∧ sign.kind = .equals

/-- A type holds the start of a declaration exactly if this comes before any equals sign. -/
theorem EndsBefore.holdsDeclaration_iff {ts behind : List Token} (h : EndsBefore ts behind) :
    HoldsDeclaration ts ↔ ¬Initialized (ts ++ behind) := by
  constructor
  · rintro hholds ⟨before, t, after, hsplit, hkind, hdepth, hnone⟩
    rcases split_append hsplit with ⟨more, hts⟩ | ⟨more, rfl, _⟩
    · exact h.noEquals before t more hts hdepth hkind
    · exact hnone (hholds.append more)
  · intro hnone
    refine Classical.byContradiction fun hholds => hnone ?_
    obtain ⟨gap, sign, rest, rfl, hgap, hkind⟩ := h.equals
    refine ⟨ts ++ gap, sign, rest, by simp, hkind, ?_, ?_⟩
    · rw [depthAfter_append, h.closed, depthAfter_of_allTrivia hgap]
    · exact fun hbehind => hholds (holdsDeclaration_of_append hgap hbehind)

/-! ## Types in a tree -/

/-- With the tokens `more` behind the tree, every type in it ends in front of an equals sign. -/
def TypesEnd (t : Tree) (more : List Token) : Prop :=
  ∀ path type, t.get? path = some type → type.isNode .typeClause = true →
    ∃ behind, t.tokens ++ more = t.tokensBefore path ++ type.tokens ++ behind ∧
      EndsBefore type.tokens behind

def AllTypesEnd : List Tree → List Token → Prop
  | [], _ => True
  | t :: ts, more => TypesEnd t (Tree.tokensList ts ++ more) ∧ AllTypesEnd ts more

theorem allTypesEnd_append {left right : List Tree} {more : List Token} :
    AllTypesEnd (left ++ right) more ↔
      AllTypesEnd left (Tree.tokensList right ++ more) ∧ AllTypesEnd right more := by
  induction left with
  | nil => simp [AllTypesEnd]
  | cons t left ih => simp [AllTypesEnd, ih, and_assoc]

theorem allTypesEnd_of_forall {ts : List Tree} (h : ∀ t ∈ ts, ∀ more, TypesEnd t more)
    (more : List Token) : AllTypesEnd ts more := by
  induction ts with
  | nil => exact trivial
  | cons t ts ih =>
    exact ⟨h t (List.mem_cons_self ..) _, ih fun u hu => h u (List.mem_cons_of_mem t hu)⟩

theorem typesEnd_node {kind : NodeKind} {children : List Tree} {more : List Token}
    (hkind : kind ≠ .typeClause) (h : AllTypesEnd children more) :
    TypesEnd (.node kind children) more := by
  intro path type hget htype
  cases path with
  | nil =>
    cases hget
    exact absurd (Tree.node.inj (Tree.eq_node_of_isNode htype)).1 hkind
  | cons i path =>
    obtain ⟨c, hc, hget⟩ := Option.bind_eq_some_iff.1 hget
    obtain ⟨hi, rfl⟩ := List.getElem?_eq_some_iff.1 hc
    have hsplit : children.take i ++ children[i] :: children.drop (i + 1) = children := by
      rw [← List.drop_eq_getElem_cons hi, List.take_append_drop]
    rw [← hsplit] at h
    obtain ⟨behind, htokens, hends⟩ := (allTypesEnd_append.1 h).2.1 path type hget htype
    have hall := congrArg Tree.tokensList hsplit
    refine ⟨behind, ?_, hends⟩
    calc (Source.Tree.node kind children).tokens ++ more
        = Tree.tokensList (children.take i) ++
            (children[i].tokens ++ (Tree.tokensList (children.drop (i + 1)) ++ more)) := by
          rw [Tree.tokens_node, ← hall, Tree.tokensList_append, Tree.tokensList_cons]
          simp only [List.append_assoc]
      _ = (Source.Tree.node kind children).tokensBefore (i :: path) ++ type.tokens ++ behind := by
          rw [htokens]
          simp [Tree.tokensBefore, hi]

theorem typesEnd_type {ts more : List Token} (h : EndsBefore ts more) :
    TypesEnd (.node .typeClause (leaves ts)) more := by
  intro path type hget htype
  cases path with
  | nil =>
    cases hget
    refine ⟨more, rfl, ?_⟩
    rwa [Tree.tokens_node, tokensList_leaves]
  | cons i path =>
    obtain ⟨c, hc, hget⟩ := Option.bind_eq_some_iff.1 hget
    obtain ⟨t, _, rfl⟩ := Tree.eq_token_of_mem_leaves (List.mem_of_getElem? hc)
    cases path <;> cases hget
    cases htype

theorem inherited_typesEnd : Inherited fun t => ∀ more, TypesEnd t more where
  token t more := by
    intro path type hget htype
    cases path <;> cases hget
    cases htype
  node hkind h more := by
    refine typesEnd_node ?_ (allTypesEnd_of_forall h more)
    rintro rfl
    cases hkind

theorem typesEnd_expression {t : Tree} (h : Expression t) (more : List Token) : TypesEnd t more :=
  Expression.all inherited_typesEnd h more

theorem allTypesEnd_leaves (ts more : List Token) : AllTypesEnd (leaves ts) more :=
  allTypesEnd_of_forall (inherited_typesEnd.leaves ts) more

/-! ## Types in a manifest -/

theorem typeClause_typesEnd {ts rest after : List Token} {trees : List Tree} {equals : List Token}
    (h : plain? (typeClause ts) = some (trees, rest))
    (hequals : plain? (expectNext? .equals rest) = some (equals, after)) :
    AllTypesEnd trees rest := by
  rw [plain?_typeClause] at h
  split at h
  · cases h
    exact trivial
  · rename_i colon behind hcolon
    obtain ⟨⟨inside, rest'⟩, hinside, heq⟩ := Option.map_eq_some_iff.1 h
    cases heq
    obtain ⟨hclosed, hnone⟩ := typeTokens_ends hinside
    have hkind := (expect?_eq_some hcolon).2
    rw [plain?_expectNext?] at hequals
    obtain ⟨⟨sign, behind'⟩, hsign, _⟩ := Option.map_eq_some_iff.1 hequals
    obtain ⟨hnext, hequals⟩ := expect?_eq_some hsign
    have hdepth : depthBehind colon.kind 0 = 0 := by
      rw [hkind]
      rfl
    refine allTypesEnd_append.2 ⟨allTypesEnd_leaves _ _, typesEnd_type ?_, trivial⟩
    refine ⟨by rw [depthAfter_cons, hdepth, hclosed], noEquals_cons.2 ⟨?_, ?_⟩, ?_⟩
    · rw [hkind]
      simp
    · rw [hdepth]
      exact hnone
    · exact ⟨_, sign, behind', eq_of_afterTrivia hnext, allTrivia_trivia _, hequals⟩

theorem bindingTail_typesEnd {ts rest : List Token} {trees : List Tree}
    (h : plain (bindingTail ts) = .ok (trees, rest)) : AllTypesEnd trees rest := by
  rw [plain_bindingTail] at h
  obtain ⟨name, hname, h⟩ := bind_eq_ok.1 h
  obtain ⟨type, htype, h⟩ := bind_eq_ok.1 h
  obtain ⟨equals, hequals, h⟩ := bind_eq_ok.1 h
  obtain ⟨value, hvalue, h⟩ := bind_eq_ok.1 h
  obtain ⟨last, hlast, heq⟩ := map_eq_ok.1 h
  cases heq
  have hequals := refusing_eq_ok.1 hequals
  have hvalue := expression_sound hvalue
  have hlast := statementEnd?_consumes (refusing_eq_ok.1 hlast)
  -- What stands behind the type is what was read behind it.
  have hbehind : type.2 = Tree.tokensList
      (leaves equals.1 ++ (leaves (trivia equals.2) ++ value.1 :: leaves last.1)) ++ last.2 :=
    calc type.2
        = equals.1 ++ equals.2 := expectNext?_consumes hequals
      _ = equals.1 ++ (trivia equals.2 ++ (value.1.tokens ++ (last.1 ++ last.2))) := by
        rw [← hlast, ← hvalue.2.1, trivia_append_afterTrivia]
      _ = _ := by simp
  have htypes := typeClause_typesEnd (refusing_eq_ok.1 htype) hequals
  rw [hbehind] at htypes
  simp only [List.append_assoc]
  refine allTypesEnd_append.2 ⟨allTypesEnd_leaves _ _, allTypesEnd_append.2 ⟨htypes, ?_⟩⟩
  refine allTypesEnd_append.2 ⟨allTypesEnd_leaves _ _, allTypesEnd_append.2
    ⟨allTypesEnd_leaves _ _, typesEnd_expression hvalue.1 _, allTypesEnd_leaves _ _⟩⟩

theorem item_typesEnd {t : Token} {ts rest : List Token} {tree : Tree}
    (h : plain (item t ts) = .ok (tree, rest)) : TypesEnd tree rest := by
  have hfirst (more : List Token) : TypesEnd (.token t) more := inherited_typesEnd.token t more
  cases itemOf_of_item h with
  | semicolon _ => exact hfirst _
  | importDecl _ _ | statement _ => exact typesEnd_node (by decide) (allTypesEnd_leaves _ _)
  | binding _ _ hbinding =>
    exact typesEnd_node (by decide) ⟨hfirst _, bindingTail_typesEnd hbinding⟩

theorem items_typesEnd {ts : List Token} {trees : List Tree} (h : items ts = .ok trees) :
    AllTypesEnd trees [] := by
  induction h using items_induction with
  | done _ _ => exact allTypesEnd_leaves _ _
  | next _ _ hitem hmore ih =>
    refine allTypesEnd_append.2 ⟨allTypesEnd_leaves _ _, ?_, ih⟩
    rw [items_consumes hmore, List.append_nil]
    exact item_typesEnd hitem

/-- A type of a parsed manifest ends in front of the first equals sign outside of delimiters behind
its colon. So another declaration starts in it exactly if no equals sign comes before that. -/
theorem type_of_parse {source : String} {root type : Tree} {path : List Nat}
    (h : parse source = .ok root) (hget : root.get? path = some type)
    (htype : type.isNode .typeClause = true) :
    ∃ behind, tokens source.toList = root.tokensBefore path ++ type.tokens ++ behind ∧
      EndsBefore type.tokens behind ∧
      (HoldsDeclaration type.tokens ↔ ¬Initialized (type.tokens ++ behind)) := by
  obtain ⟨_, children, hitems, hroot⟩ := RoundTrip.parseText_eq_ok_iff.1 h
  have hends : TypesEnd root [] := by
    rw [hroot]
    exact typesEnd_node (by decide) (items_typesEnd hitems)
  obtain ⟨behind, htokens, hbehind⟩ := hends path type hget htype
  rw [List.append_nil, RoundTrip.tokens_of_parseText h] at htokens
  exact ⟨behind, htokens, hbehind, hbehind.holdsDeclaration_iff⟩

/-- A type of several lines, with the equals sign in another line. -/
theorem type_of_parse_lines :
    ∃ root type behind, parse "let a: [\n  Int\n]\n  = [2]" = .ok root ∧
      root.get? [0, 3] = some type ∧ type.isNode .typeClause = true ∧
      type.text = ": [\n  Int\n]".toList ∧
      tokens "let a: [\n  Int\n]\n  = [2]".toList =
        root.tokensBefore [0, 3] ++ type.tokens ++ behind ∧
      EndsBefore type.tokens behind ∧
      (HoldsDeclaration type.tokens ↔ ¬Initialized (type.tokens ++ behind)) := by
  have hrun : ((parse "let a: [\n  Int\n]\n  = [2]").toOption.bind fun root =>
      (root.get? [0, 3]).map fun type =>
        type.isNode .typeClause && type.text == ": [\n  Int\n]".toList) = some true := by
    decide +kernel
  simp only [Option.bind_eq_some_iff, Option.map_eq_some_iff, Bool.and_eq_true, beq_iff_eq] at hrun
  obtain ⟨root, hroot, type, hget, htype, htext⟩ := hrun
  have hparse := RoundTrip.eq_ok_of_toOption hroot
  obtain ⟨behind, htokens, hends, hholds⟩ := type_of_parse hparse hget htype
  exact ⟨root, type, behind, hparse, hget, htype, htext, htokens, hends, hholds⟩

/-- A binding without a value takes the start of the next one into its type. -/
theorem type_holds_next_binding :
    ∃ root type, parse "var x: Int\nlet y = 5" = .ok root ∧ root.get? [0, 3] = some type ∧
      type.isNode .typeClause = true ∧ HoldsDeclaration type.tokens := by
  have hrun : ((parse "var x: Int\nlet y = 5").toOption.bind fun root =>
      (root.get? [0, 3]).map fun type => (type.isNode .typeClause, type.tokens)) =
        some (true, [⟨.colon, [':']⟩, ⟨.whitespace, [' ']⟩, ⟨.ident, "Int".toList⟩,
          ⟨.newline, ['\n']⟩, ⟨.letKw, "let".toList⟩, ⟨.whitespace, [' ']⟩, ⟨.ident, ['y']⟩]) := by
    decide +kernel
  simp only [Option.bind_eq_some_iff, Option.map_eq_some_iff, Prod.mk.injEq] at hrun
  obtain ⟨root, hroot, type, hget, htype, htokens⟩ := hrun
  refine ⟨root, type, RoundTrip.eq_ok_of_toOption hroot, hget, htype, ?_⟩
  rw [htokens]
  exact ⟨[_, _, _, _], _, [_, _], rfl, by decide, by decide, by decide⟩

end PackageManifest.Proofs.Types
