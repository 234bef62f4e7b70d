import PackageManifest.Edit.Array
import PackageManifest.Proofs.Edits.Insertion

/-!
# Editing an array literal

An appended element comes behind the ones that are there, and an array that is written anew has the
expressions it was given. Both are array literals again and their tokens are their own cut.
-/

namespace PackageManifest.Proofs.Edits

open Source Grammar Lexing PackageManifest.Edit PackageManifest.Edit.Array

/-! ## Where a new element goes -/

/-- Looking for the last child counts from the position of the first one. -/
theorem find?_positions_cases (p : Tree → Bool) (n : Nat) (trees : List Tree) :
    ((trees.zipIdx n).reverse.find? (fun y => p y.1) = none ∧ ∀ t ∈ trees, p t = false) ∨
      ∃ left x right, trees = left ++ x :: right ∧ p x = true ∧ (∀ t ∈ right, p t = false) ∧
        (trees.zipIdx n).reverse.find? (fun y => p y.1) = some (x, n + left.length) := by
  induction trees generalizing n with
  | nil => exact .inl ⟨rfl, by simp⟩
  | cons t trees ih =>
    rw [List.zipIdx_cons, List.reverse_cons, List.find?_append]
    rcases ih (n + 1) with ⟨hnone, hall⟩ | ⟨left, x, right, rfl, hx, hright, hsome⟩
    · rw [hnone, Option.none_or]
      cases ht : p t with
      | true => exact .inr ⟨[], t, trees, rfl, ht, hall, by simp [ht]⟩
      | false => exact .inl ⟨by simp [ht], by simpa [ht] using hall⟩
    · refine .inr ⟨t :: left, x, right, rfl, hx, hright, ?_⟩
      rw [hsome, Option.some_or, List.length_cons]
      congr 2
      omega

theorem lastIdx?_cases (p : Tree → Bool) (trees : List Tree) :
    (lastIdx? p trees = none ∧ ∀ t ∈ trees, p t = false) ∨
      ∃ left x right, trees = left ++ x :: right ∧ p x = true ∧ (∀ t ∈ right, p t = false) ∧
        lastIdx? p trees = some left.length := by
  have hlast : lastIdx? p trees =
      (trees.zipIdx.reverse.find? fun y => p y.1).map Prod.snd := rfl
  rw [hlast]
  rcases find?_positions_cases p 0 trees with
    ⟨hnone, hall⟩ | ⟨left, x, right, rfl, hx, hright, hsome⟩
  · exact .inl ⟨by rw [hnone]; rfl, hall⟩
  · exact .inr ⟨left, x, right, rfl, hx, hright, by rw [hsome]; simp⟩

theorem modify_split (left right : List Tree) (x : Tree) (f : Tree → Tree) :
    (left ++ x :: right).modify left.length f = left ++ f x :: right := by
  rw [List.modify_eq_take_cons_drop (by simp)]
  simp

/-! ## The expressions of the elements -/

theorem elementExprs_append (kind : NodeKind) (as bs : List Tree) :
    (Source.Tree.node kind (as ++ bs)).elementExprs =
      (Source.Tree.node kind as).elementExprs ++ (Source.Tree.node kind bs).elementExprs := by
  simp [Tree.elementExprs, Tree.elements]

theorem elementExprs_eq_nil {kind : NodeKind} {trees : List Tree}
    (h : ∀ t ∈ trees, t.isNode .arrayElement = false) :
    (Source.Tree.node kind trees).elementExprs = [] := by
  have hnone : trees.filter (Tree.isNode .arrayElement) = [] := by
    rw [List.filter_eq_nil_iff]
    simpa using h
  rw [Tree.elementExprs, Tree.elements, Tree.children_node, hnone, List.filterMap_nil]

theorem elementExprs_leaves (kind : NodeKind) (ts : List Token) :
    (Source.Tree.node kind (leaves ts)).elementExprs = [] := by
  refine elementExprs_eq_nil fun t ht => ?_
  obtain ⟨u, _, rfl⟩ := Tree.eq_token_of_mem_leaves ht
  rfl

theorem elementExprs_single {kind : NodeKind} {e : Tree} (he : e.isNode .arrayElement = true) :
    (Source.Tree.node kind [e]).elementExprs = e.expr?.toList := by
  rw [Tree.elementExprs, Tree.elements, Tree.children_node, List.filter_cons_of_pos he,
    List.filter_nil]
  cases h : e.expr? <;> simp [h]

theorem elementExprs_insertAfter (kind : NodeKind) (left right : List Tree) (x : Tree)
    (lead : List Token) {expr : Tree} (hexpr : expr.isExpr = true) :
    (Source.Tree.node kind (insertAfter (left ++ x :: right) left.length lead
        (.node .arrayElement [expr]))).elementExprs =
      (Source.Tree.node kind (left ++ [x])).elementExprs ++
        expr :: (Source.Tree.node kind right).elementExprs := by
  have hvalue : (Source.Tree.node .arrayElement [expr]).expr? = some expr := by
    simp [Tree.expr?, hexpr]
  rw [Tree.elementExprs, Tree.elements, Tree.children_node,
    filter_insertAfter left right x lead rfl, List.filterMap_append,
    List.filterMap_cons_some hvalue]
  rfl

section Literal

variable {budget : Nat} {array : Tree}

theorem exists_expr?_of_mem (h : ArrayLiteral (Operand budget) array) {e : Tree}
    (he : e ∈ array.elements) : ∃ v, e.expr? = some v ∧ Sequence (Operand budget) v := by
  obtain ⟨children, rfl⟩ : ∃ children, array = .node .arrayExpr children :=
    ⟨_, Tree.eq_node_of_isNode h.isNode⟩
  obtain ⟨hmem, hnode⟩ := List.mem_filter.1 he
  obtain ⟨left, right, hsplit⟩ := List.append_of_mem hmem
  rw [Tree.children_node] at hsplit
  rw [hsplit] at h
  obtain ⟨separated, helement, _⟩ := Delimited.item h hnode
  exact helement.exists_expr?

theorem sequence_of_mem_elementExprs (h : ArrayLiteral (Operand budget) array) {v : Tree}
    (hv : v ∈ array.elementExprs) : Sequence (Operand budget) v := by
  obtain ⟨e, he, hexpr⟩ := List.mem_filterMap.1 hv
  obtain ⟨w, hw, hsequence⟩ := exists_expr?_of_mem h he
  rw [hexpr] at hw
  obtain rfl := Option.some.inj hw
  exact hsequence

theorem head?_elementExprs (h : ArrayLiteral (Operand budget) array) :
    array.elementExprs.head? = array.elements.head?.bind Tree.expr? := by
  unfold Tree.elementExprs
  cases helements : array.elements with
  | nil => rfl
  | cons e es =>
    obtain ⟨v, hv, _⟩ := exists_expr?_of_mem h (helements ▸ List.mem_cons_self ..)
    rw [List.filterMap_cons_some hv, List.head?_cons, List.head?_cons, Option.bind_some, hv]

end Literal

/-! ## Appending -/

section Append

variable {budget : Nat} {children : List Tree} {expr : Tree}

theorem element_single {P : Tree → Prop} (hexpr : Sequence P expr) :
    Element P .arrayElement false (.node .arrayElement [expr]) :=
  .bare .none hexpr

theorem isInlineTrivia_of_isComment {u : Token} (h : u.kind.isComment = true) :
    u.isInlineTrivia = true := by
  rw [Token.isInlineTrivia, Token.isTrivia]
  cases hkind : u.kind <;> rw [hkind] at h <;> first | rfl | cases h

/-- A comment among the trivia before a closing bracket splits that trivia. -/
theorem leaves_split {tr : List Token} {close : Token} {left right : List Tree} {x : Tree}
    (h : leaves tr ++ [.token close] = left ++ x :: right) (hx : x.isComment = true)
    (hclose : close.kind = .rBracket) :
    ∃ before u behind, tr = before ++ u :: behind ∧ left = leaves before ∧ x = .token u ∧
      right = leaves behind ++ [.token close] := by
  rcases List.eq_nil_or_concat right with rfl | ⟨inner, w, rfl⟩
  · obtain ⟨_, hlast⟩ := List.append_inj' h rfl
    rw [← List.singleton_inj.1 hlast, Tree.isComment_token, hclose] at hx
    cases hx
  · rw [List.concat_eq_append] at h ⊢
    rw [← List.cons_append, ← List.append_assoc] at h
    obtain ⟨hleaves, hlast⟩ := List.append_inj' h rfl
    obtain ⟨before, more, rfl, rfl, hmore⟩ := List.map_eq_append_iff.1 hleaves
    obtain ⟨u, behind, rfl, rfl, rfl⟩ := List.map_eq_cons_iff.1 hmore
    exact ⟨before, u, behind, rfl, rfl, rfl, by rw [← hlast]; rfl⟩

/-- The anchor of an array without elements is its bracket or its last comment. -/
theorem anchor_of_none (h : ArrayLiteral (Operand budget) (.node .arrayExpr children))
    (hnone : ∀ t ∈ children, t.isNode .arrayElement = false) :
    ∃ left u right, children = left ++ .token u :: right ∧ endsLine u = true ∧
      (lastIdx? Tree.isComment children).getD 0 = left.length ∧
      Elements (Operand budget) .arrayElement .rBracket right ∧
      ∀ trees, Elements (Operand budget) .arrayElement .rBracket trees →
        ArrayLiteral (Operand budget) (.node .arrayExpr (left ++ .token u :: trees)) := by
  cases h with
  | intro ht helements =>
    rename_i bracket rest
    have hrest : rest.any (Tree.isNode .arrayElement) = false := by
      rw [List.any_eq_false]
      intro t ht
      rw [hnone t (List.mem_cons_of_mem _ ht)]
      decide
    rcases lastIdx?_cases Tree.isComment (.token bracket :: rest) with
      ⟨hcomment, _⟩ | ⟨left, x, right, heq, hx, _, hcomment⟩
    · rw [hcomment]
      exact ⟨[], bracket, rest, rfl, by simp [endsLine, ht], rfl, helements,
        fun trees htrees => .intro ht htrees⟩
    · rw [hcomment]
      cases left with
      | nil =>
        obtain ⟨rfl, _⟩ := List.cons.inj heq
        rw [Tree.isComment_token, ht] at hx
        cases hx
      | cons y left =>
        obtain ⟨rfl, hsplit⟩ := List.cons.inj heq
        obtain ⟨tr, close, htr, hclose, rfl⟩ := helements.eq_of_all_leaves hrest
        obtain ⟨before, u, behind, rfl, rfl, rfl, rfl⟩ := leaves_split hsplit hx hclose
        have hbefore : AllTrivia (before ++ [u]) := fun v hv => htr v (by
          rw [List.append_cons]
          exact List.mem_append_left _ hv)
        have hbehind : AllTrivia behind := fun v hv => htr v (by simp [hv])
        refine ⟨.token bracket :: leaves before, u, _, by rw [hsplit]; rfl, ?_, rfl,
          .close hbehind hclose, fun trees htrees => .intro ht ?_⟩
        · rw [endsLine, isInlineTrivia_of_isComment hx, Bool.or_true]
        · have := htrees.trivia hbefore
          simpa [leaves] using this

/-- What an edit of an array does: it stays an array literal, its tokens are its own cut in every
context, and its elements are the given expressions. -/
structure Rewrites (budget : Nat) (old new : Tree) (exprs : List Tree) : Prop where
  literal : ArrayLiteral (Operand budget) new
  relexes : Relexes old.tokens new.tokens
  elementExprs : new.elementExprs = exprs

theorem elementExprs_withSeparator {kind : NodeKind} {e : Tree} (left right : List Tree)
    (he : e.isNode .arrayElement = true) :
    (Source.Tree.node kind (left ++ withSeparator e :: right)).elementExprs =
      (Source.Tree.node kind (left ++ e :: right)).elementExprs := by
  have hvalue := @elementExprs_single kind _ ((isNode_withSeparator e _).trans he)
  rw [expr?_withSeparator, ← @elementExprs_single kind _ he] at hvalue
  rw [List.append_cons left, List.append_cons left e, elementExprs_append,
    elementExprs_append _ left, elementExprs_append _ (left ++ [e]), elementExprs_append _ left,
    hvalue]

theorem separate_rewrites {site : Site} (h : ArrayLiteral (Operand budget) site.tree) :
    Rewrites budget site.tree (separate site).replacement site.tree.elementExprs := by
  obtain ⟨path, tree⟩ := site
  obtain ⟨children, rfl⟩ : ∃ children, tree = .node .arrayExpr children :=
    ⟨_, Tree.eq_node_of_isNode h.isNode⟩
  simp only [separate, Tree.children_node, separated]
  rcases lastIdx?_cases (Tree.isNode .arrayElement) children with
    ⟨hlast, _⟩ | ⟨left, e, right, rfl, he, _, hlast⟩
  · simp only [lastElement?, hlast]
    exact ⟨h, .refl _, rfl⟩
  · simp only [lastElement?, hlast, modify_split]
    obtain ⟨_, helement, _⟩ := Delimited.item h he
    obtain ⟨hright, hfill⟩ := delimited_behind h he
    refine ⟨hfill _ hright, ?_, elementExprs_withSeparator left right he⟩
    have := (relexes_withSeparator helement).1.around (Tree.tokensList left) (Tree.tokensList right)
    simpa using this

theorem any_isNode_eq_false {kind : NodeKind} {trees : List Tree}
    (h : ∀ t ∈ trees, t.isNode kind = false) : trees.any (Tree.isNode kind) = false := by
  rw [List.any_eq_false]
  intro t ht
  rw [h t ht]
  decide

theorem tokens_element (expr : Tree) :
    (Source.Tree.node .arrayElement [expr]).tokens = expr.tokens := by simp

/-- Behind a new last element are only trivia and the bracket. -/
theorem cutBefore_element {right more : List Tree} {inline : List Token}
    (hexpr : Readable budget expr)
    (h : Elements (Operand budget) .arrayElement .rBracket right)
    (hnone : ∀ t ∈ right, t.isNode .arrayElement = false) (hsplit : right = leaves inline ++ more)
    (hinline : AllTrivia inline) :
    CutBefore (Source.Tree.node .arrayElement [expr]).tokens (Tree.tokensList more) := by
  subst hsplit
  rw [tokens_element]
  exact hexpr.cutBefore (follows_of_no_element h rfl hinline (any_isNode_eq_false hnone))

theorem append_rewrites (layout : Layout) (level : Nat) {site : Site}
    (h : ArrayLiteral (Operand budget) site.tree) (hexpr : Readable budget expr) :
    Rewrites budget site.tree (append layout site expr level).replacement
      (site.tree.elementExprs ++ [expr]) := by
  obtain ⟨path, tree⟩ := site
  obtain ⟨children, rfl⟩ : ∃ children, tree = .node .arrayExpr children :=
    ⟨_, Tree.eq_node_of_isNode h.isNode⟩
  have hstops : ∀ more, Stops isSpace (textOf (Source.Tree.node .arrayElement [expr]).tokens ++
      more) := by
    rw [tokens_element]
    exact hexpr.stops
  simp only [append, Tree.children_node, separated, anchor]
  rcases lastIdx?_cases (Tree.isNode .arrayElement) children with
    ⟨hlast, hnone⟩ | ⟨left, e, right, rfl, he, hright, hlast⟩
  · obtain ⟨left, u, right, rfl, hu, hanchor, helements, hfill⟩ := anchor_of_none h hnone
    simp only [lastElement?, hlast, hanchor]
    have hbehind : ∀ t ∈ right, t.isNode .arrayElement = false := fun t ht =>
      hnone t (by simp [ht])
    have hanchor : (Tree.token u).tokens = [] ++ [u] := rfl
    refine ⟨?_, relexes_insertAfter hanchor hu (.inl ⟨layout, level, rfl⟩) hstops
      (cutBefore_element hexpr helements hbehind), ?_⟩
    · obtain ⟨inline, more, rfl, hinline, _, hinsert⟩ :=
        insertAfter_split left right (.token u) (.node .arrayElement [expr]) (layout.newLine level)
      rw [hinsert]
      refine hfill _ (elements_insert helements rfl hinline (allTrivia_newLine layout level) ?_)
      rw [any_isNode_eq_false hbehind]
      exact element_single hexpr.sequence
    · have hbefore : ∀ t ∈ left ++ [.token u], t.isNode .arrayElement = false := fun t ht =>
        hnone t (by rw [List.append_cons]; exact List.mem_append_left _ ht)
      rw [elementExprs_insertAfter _ _ _ _ _ hexpr.sequence.isExpr, elementExprs_eq_nil hnone,
        elementExprs_eq_nil hbehind, elementExprs_eq_nil hbefore]
  · simp only [lastElement?, hlast, modify_split]
    obtain ⟨separated, helement, _⟩ := Delimited.item h he
    obtain ⟨hcomma, ts, u, hts, hu⟩ := relexes_withSeparator helement
    have hline : endsLine u = true := by simp [endsLine, hu]
    refine ⟨?_, ?_, ?_⟩
    · refine delimited_insertAfter h rfl he (allTrivia_newLine layout level) ?_
      rw [any_isNode_eq_false hright]
      exact element_single hexpr.sequence
    · refine Relexes.trans ?_ (relexes_insertAfter hts hline (.inl ⟨layout, level, rfl⟩) hstops
        (cutBefore_element hexpr (delimited_behind h he).1 hright))
      have := hcomma.around (Tree.tokensList left) (Tree.tokensList right)
      simpa using this
    · have hvalues := @elementExprs_withSeparator .arrayExpr e left [] he
      rw [elementExprs_insertAfter _ _ _ _ _ hexpr.sequence.isExpr, hvalues,
        elementExprs_eq_nil hright, List.append_cons left e right,
        elementExprs_append _ (left ++ [e]) right, elementExprs_eq_nil hright, List.append_nil]

end Append

/-! ## Writing an array anew -/

section Reflow

variable {budget : Nat} {exprs : List Tree}

theorem elements_elementLines {P : Tree → Prop} {lead : List Token} {behind : List Token}
    {close : Token} (hlead : AllTrivia lead) (hexprs : ∀ e ∈ exprs, Sequence P e)
    (hbehind : AllTrivia behind) (hclose : close.kind = .rBracket) :
    Elements P .arrayElement .rBracket
      (elementLines lead exprs ++ (leaves behind ++ [.token close])) := by
  fun_induction elementLines lead exprs with
  | case1 => exact .close hbehind hclose
  | case2 expr =>
    have := Elements.last hlead (element_single (hexprs expr (by simp))) hbehind hclose
    simpa using this
  | case3 expr next more ih =>
    have hlabel : Label .arrayElement [] := .none
    have hcomma : Token.kind ⟨.comma, [',']⟩ = .comma := rfl
    have helement := Element.separated hlabel (hexprs expr (by simp)) allTrivia_nil hcomma
    rw [List.append_assoc, List.cons_append]
    exact .next hlead helement (ih fun e he => hexprs e (List.mem_cons_of_mem _ he))

theorem elementExprs_elementLines {kind : NodeKind} {lead : List Token} (trees : List Tree)
    (hexprs : ∀ e ∈ exprs, e.isExpr = true) :
    (Source.Tree.node kind (elementLines lead exprs ++ trees)).elementExprs =
      exprs ++ (Source.Tree.node kind trees).elementExprs := by
  fun_induction elementLines lead exprs with
  | case1 => rfl
  | case2 expr =>
    have hvalue : (Source.Tree.node .arrayElement [expr]).expr? = some expr := by
      simp [Tree.expr?, hexprs expr (by simp)]
    rw [List.append_assoc, elementExprs_append, elementExprs_leaves, elementExprs_append,
      elementExprs_single rfl, hvalue]
    rfl
  | case3 expr next more ih =>
    have hvalue : (Source.Tree.node .arrayElement [expr, commaToken]).expr? = some expr := by
      simp [Tree.expr?, hexprs expr (by simp)]
    rw [List.append_cons, List.append_assoc, List.append_assoc, elementExprs_append,
      elementExprs_leaves, elementExprs_append, elementExprs_single rfl, hvalue,
      ih fun e he => hexprs e (List.mem_cons_of_mem _ he)]
    rfl

theorem lexed_line (layout : Layout) (level : Nat) {expr : Tree} {c : Char} {cs : List Char}
    (hexpr : Readable budget expr) (hc : Outside c) :
    Lexed (layout.newLine level ++ expr.tokens) (c :: cs) :=
  lexed_append.2 ⟨lexed_newLine layout level (hexpr.stops _), hexpr.lexed_cons hc⟩

theorem lexed_elementLines (layout : Layout) (level : Nat) {c : Char} {cs : List Char}
    (hexprs : ∀ e ∈ exprs, Readable budget e) (hc : isBreak c = true) :
    Lexed (Tree.tokensList (elementLines (layout.newLine level) exprs)) (c :: cs) := by
  fun_induction elementLines (layout.newLine level) exprs with
  | case1 => trivial
  | case2 expr =>
    have hline : Lexed (layout.newLine level ++ expr.tokens) (c :: cs) :=
      lexed_line layout level (hexprs expr (by simp)) (outside_of_isBreak hc)
    simpa using hline
  | case3 expr next more ih =>
    have hmore := ih fun e he => hexprs e (List.mem_cons_of_mem _ he)
    have htokens : Tree.tokensList (leaves (layout.newLine level) ++
        .node .arrayElement [expr, commaToken] ::
          elementLines (layout.newLine level) (next :: more)) =
        layout.newLine level ++ expr.tokens ++ ⟨.comma, [',']⟩ ::
          Tree.tokensList (elementLines (layout.newLine level) (next :: more)) := by
      simp [commaToken]
    rw [htokens]
    refine lexed_append.2 ⟨?_, cuts_comma _, hmore⟩
    exact lexed_line layout level (hexprs expr (by simp)) (by decide)

theorem tokens_of_mem_elementExprs {array expr : Tree} (h : expr ∈ array.elementExprs) :
    ∃ before after, array.tokens = before ++ expr.tokens ++ after := by
  have split {trees : List Tree} {t : Tree} (ht : t ∈ trees) :
      ∃ before after, Tree.tokensList trees = before ++ t.tokens ++ after := by
    obtain ⟨left, right, rfl⟩ := List.append_of_mem ht
    exact ⟨Tree.tokensList left, Tree.tokensList right, by simp⟩
  have children {t : Tree} : Tree.tokensList t.children = t.tokens ∨ t.children = [] := by
    cases t with
    | token u => exact .inr rfl
    | node k cs => exact .inl rfl
  obtain ⟨e, he, hexpr⟩ := List.mem_filterMap.1 h
  have he' := (List.mem_filter.1 he).1
  have hexpr' := List.mem_of_find?_eq_some hexpr
  obtain ⟨before, after, houter⟩ := split he'
  obtain ⟨before', after', hinner⟩ := split hexpr'
  rcases children (t := array) with harray | hnil
  · rcases children (t := e) with helement | hnil
    · refine ⟨before ++ before', after' ++ after, ?_⟩
      rw [← harray, houter, ← helement, hinner]
      simp
    · rw [hnil] at hexpr'
      cases hexpr'
  · rw [hnil] at he'
    cases he'

theorem readable_of_mem_elementExprs {array expr : Tree} (h : ArrayLiteral (Operand budget) array)
    (hlexed : ∃ rest, Lexed array.tokens rest) (hexpr : expr ∈ array.elementExprs) :
    Readable budget expr := by
  obtain ⟨rest, hlexed⟩ := hlexed
  obtain ⟨before, after, htokens⟩ := tokens_of_mem_elementExprs hexpr
  rw [htokens] at hlexed
  exact ⟨sequence_of_mem_elementExprs h hexpr, lexed_middle hlexed⟩

theorem lexed_reflow (layout : Layout) (level : Nat) (rest : List Char)
    (hexprs : ∀ e ∈ exprs, Readable budget e) :
    Lexed (Tree.tokensList (elementLines (layout.newLine (level + 1)) exprs) ++
      (layout.newLine level ++ [⟨.rBracket, [']']⟩])) rest := by
  refine lexed_append.2 ⟨?_, lexed_append.2 ⟨?_, ?_⟩⟩
  · obtain ⟨c, cs, htext, hc⟩ := head_newLine layout level
    rw [textOf_append, htext]
    exact lexed_elementLines layout (level + 1) hexprs hc
  · exact lexed_newLine layout level (stops_cons.2 (by decide))
  · exact ⟨cuts_mark (by decide) rfl _, trivial⟩

theorem reflow_rewrites (layout : Layout) (level : Nat) {site : Site}
    (h : ArrayLiteral (Operand budget) site.tree)
    (hexprs : ∀ e ∈ exprs, Readable budget e) :
    Rewrites budget site.tree (reflow layout site level exprs).replacement exprs := by
  have htrivia := allTrivia_newLine layout
  have hnew : (reflow layout site level exprs).replacement =
      .node .arrayExpr ([.token ⟨.lBracket, ['[']⟩] ++
        (elementLines (layout.newLine (level + 1)) exprs ++
          (leaves (layout.newLine level) ++ [.token ⟨.rBracket, [']']⟩]))) := by
    simp [reflow]
  rw [hnew]
  refine ⟨?_, ?_, ?_⟩
  · have hsequences := fun e he => (hexprs e he).sequence
    exact .intro rfl (elements_elementLines (htrivia _) hsequences (htrivia _) rfl)
  · intro before after rest hold
    generalize site.tree = array at h hold
    cases h with
    | intro ht helements =>
      rename_i t children
      rw [List.append_assoc] at hold
      have hcuts : Cuts t _ := (lexed_append.1 hold).2.1
      have htokens : (Source.Tree.node .arrayExpr ([.token ⟨.lBracket, ['[']⟩] ++
          (elementLines (layout.newLine (level + 1)) exprs ++
            (leaves (layout.newLine level) ++ [.token ⟨.rBracket, [']']⟩])))).tokens =
          t :: (Tree.tokensList (elementLines (layout.newLine (level + 1)) exprs) ++
            (layout.newLine level ++ [⟨.rBracket, [']']⟩])) := by
        rw [hcuts.eq_mark '[' ht rfl]
        simp
      rw [htokens, List.append_assoc, List.cons_append]
      refine Lexed.splice hold (fits_of_isMark (by rw [ht]; rfl) _) (by rw [ht]; decide) ?_
      exact lexed_reflow layout level _ hexprs
  · have hbracket (u : Token) : (Source.Tree.node .arrayExpr [.token u]).elementExprs = [] :=
      elementExprs_leaves .arrayExpr [u]
    rw [elementExprs_append, elementExprs_elementLines _ fun e he => (hexprs e he).sequence.isExpr,
      elementExprs_append, elementExprs_leaves, hbracket, hbracket, List.nil_append,
      List.append_nil, List.append_nil]

end Reflow

end PackageManifest.Proofs.Edits
