import PackageManifest.Proofs.Altering

/-!
# Edited lists without trivia

However an array is given more elements, by appending them or by writing it anew, without trivia it
is the array of the same expressions with a comma behind each but the last (`plainArray`). An
argument that is inserted stands right behind its anchor.
-/

namespace PackageManifest.Proofs.Edits

open Source Grammar Lexing PackageManifest.Edit PackageManifest.Edit.Array

def plainArray (exprs : List Tree) : Tree :=
  .node .arrayExpr (.token ⟨.lBracket, ['[']⟩ :: elementLines [] exprs ++
    [.token ⟨.rBracket, [']']⟩])

/-! ## Arrays written anew -/

theorem bareList_elementLines {lead : List Token} (hlead : AllTrivia lead) {exprs : List Tree}
    (hexprs : ∀ e ∈ exprs, e.isTrivia = false) :
    Tree.bareList (elementLines lead exprs) = elementLines [] (exprs.map Tree.bare) := by
  fun_induction elementLines lead exprs with
  | case1 => rfl
  | case2 expr =>
    have hexpr := hexprs expr (by simp)
    rw [Tree.bareList_append, Tree.bareList_trivia hlead, Tree.bareList_cons_node, Tree.bare_node,
      Tree.bareList_cons hexpr]
    rfl
  | case3 expr next more ih =>
    have hexpr := hexprs expr (by simp)
    rw [Tree.bareList_append, Tree.bareList_trivia hlead, Tree.bareList_cons_node, Tree.bare_node,
      Tree.bareList_cons hexpr, ih fun e he => hexprs e (List.mem_cons_of_mem _ he)]
    rfl

theorem reflow_bare (layout : Layout) (site : Site) (level : Nat) {exprs : List Tree}
    (hexprs : ∀ e ∈ exprs, e.isTrivia = false) :
    (reflow layout site level exprs).replacement.bare = plainArray (exprs.map Tree.bare) := by
  have hlines := bareList_elementLines (allTrivia_newLine layout (level + 1)) hexprs
  have hlast := Tree.bareList_trivia (allTrivia_newLine layout level)
  rw [reflow, Tree.bare_node, List.append_assoc, List.cons_append, Tree.bareList_cons rfl,
    Tree.bareList_append, hlines, Tree.bareList_append, hlast]
  rfl

/-! ## Arrays as they were written -/

theorem label_arrayElement {label : List Token} (h : Label .arrayElement label) : label = [] := by
  cases h with
  | none => rfl
  | some hkind => cases hkind

section Literal

variable {budget : Nat} {separated : Bool} {e : Tree} {trees : List Tree} {rest : List Char}

theorem element_bare (h : Element (Operand budget) .arrayElement separated e)
    (hlexed : Lexed e.tokens rest) :
    ∃ v, e.expr? = some v ∧ hasSeparator e = separated ∧
      e.bare = .node .arrayElement (v.bare :: if separated then [commaToken] else []) := by
  obtain ⟨v, hv, _⟩ := h.exists_expr?
  refine ⟨v, hv, ?_⟩
  cases h with
  | @bare label value hlabel hvalue =>
    obtain rfl := label_arrayElement hlabel
    have hnode := Tree.token?_of_isExpr hvalue.isExpr
    obtain rfl : value = v := by simpa [Tree.expr?, leaves, hvalue.isExpr] using hv
    refine ⟨?_, ?_⟩
    · cases value with
      | token u => cases hnode
      | node k cs => rfl
    · simp [leaves, Tree.bareList_cons_of_token? hnode]
  | @separated label before value comma hlabel hvalue hbefore hcomma =>
    obtain rfl := label_arrayElement hlabel
    have hnode := Tree.token?_of_isExpr hvalue.isExpr
    obtain rfl : value = v := by simpa [Tree.expr?, leaves, hvalue.isExpr] using hv
    have htokens : (Source.Tree.node .arrayElement
        (leaves [] ++ value :: leaves before ++ [.token comma])).tokens =
          (value.tokens ++ before) ++ [comma] := by
      simp
    rw [htokens] at hlexed
    have hmark : comma = ⟨.comma, [',']⟩ :=
      (lexed_append.1 hlexed).2.1.eq_mark ',' hcomma rfl
    refine ⟨?_, ?_⟩
    · rw [hasSeparator, Tree.children_node, List.getLast?_concat]
      simp [hcomma]
    · have hbare : Tree.bareList (leaves [] ++ value :: leaves before ++ [.token comma]) =
          value.bare :: (Tree.bareList (leaves before) ++ Tree.bareList [.token comma]) := by
        simp [leaves, Tree.bareList_cons_of_token? hnode]
      rw [Tree.bare_node, hbare, Tree.bareList_trivia hbefore, hmark]
      rfl

theorem elementExprs_cons {kind : NodeKind} {before : List Token} {v : Tree}
    (he : e.isNode .arrayElement = true) (hv : e.expr? = some v) (more : List Tree) :
    (Source.Tree.node kind (leaves before ++ e :: more)).elementExprs =
      v :: (Source.Tree.node kind more).elementExprs := by
  rw [List.append_cons, elementExprs_append, elementExprs_append, elementExprs_leaves,
    elementExprs_single he, hv]
  rfl

theorem elementExprs_close (before : List Token) (t : Token) :
    (Source.Tree.node .arrayExpr (leaves before ++ [.token t])).elementExprs = [] := by
  have := elementExprs_leaves .arrayExpr (before ++ [t])
  simpa [leaves] using this

theorem bareList_element {before : List Token} (hbefore : AllTrivia before)
    (he : e.isNode .arrayElement = true) (more : List Tree) :
    Tree.bareList (leaves before ++ e :: more) = e.bare :: Tree.bareList more := by
  rw [Tree.bareList_append, Tree.bareList_trivia hbefore,
    Tree.bareList_cons_of_token? (Tree.token?_of_isNode he), List.nil_append]

def isTidy (trees : List Tree) : Bool :=
  (trees.filter (Tree.isNode .arrayElement)).getLast?.all fun e => !hasSeparator e

theorem isTidy_cons {before : List Token} (he : e.isNode .arrayElement = true)
    (hcomma : hasSeparator e = true) (h : isTidy (leaves before ++ e :: trees) = true) :
    isTidy trees = true ∧ trees.filter (Tree.isNode .arrayElement) ≠ [] := by
  rw [isTidy, List.filter_append, Tree.filter_isNode_leaves, List.nil_append,
    List.filter_cons_of_pos he] at h
  rw [isTidy]
  cases hmore : trees.filter (Tree.isNode .arrayElement) with
  | nil =>
    rw [hmore] at h
    simp [hcomma] at h
  | cons f fs =>
    rw [hmore, List.getLast?_cons_cons] at h
    exact ⟨h, List.cons_ne_nil _ _⟩

theorem bareList_close {before : List Token} {t : Token} (hbefore : AllTrivia before)
    (ht : t.kind = .rBracket)
    (hlexed : Lexed (Tree.tokensList (leaves before ++ [.token t])) rest) :
    Tree.bareList (leaves before ++ [.token t]) = [.token ⟨.rBracket, [']']⟩] := by
  rw [Tree.tokensList_append, lexed_append] at hlexed
  have hmark : t = ⟨.rBracket, [']']⟩ := hlexed.2.1.eq_mark ']' ht rfl
  rw [Tree.bareList_append, Tree.bareList_trivia hbefore, hmark]
  rfl

theorem elements_bare (h : Elements (Operand budget) .arrayElement .rBracket trees)
    (hlexed : Lexed (Tree.tokensList trees) rest) (htidy : isTidy trees = true) :
    Tree.bareList trees = elementLines [] ((Source.Tree.node .arrayExpr trees).elementExprs.map
      Tree.bare) ++ [.token ⟨.rBracket, [']']⟩] := by
  induction h with
  | close hbefore ht =>
    rw [bareList_close hbefore ht hlexed, elementExprs_close]
    rfl
  | @last before behind e t hbefore he hbehind ht =>
    have htokens : Tree.tokensList (leaves before ++ e :: leaves behind ++ [.token t]) =
        before ++ (e.tokens ++ Tree.tokensList (leaves behind ++ [.token t])) := by
      simp
    rw [htokens, lexed_append, lexed_append] at hlexed
    obtain ⟨v, hv, _, helement⟩ := element_bare he hlexed.2.1
    rw [List.append_assoc, List.cons_append, bareList_element hbefore he.isNode,
      bareList_close hbehind ht hlexed.2.2, helement, elementExprs_cons he.isNode hv,
      elementExprs_close]
    rfl
  | @next before e more hbefore he hmore ih =>
    have htokens : Tree.tokensList (leaves before ++ e :: more) =
        before ++ (e.tokens ++ Tree.tokensList more) := by
      simp
    rw [htokens, lexed_append, lexed_append] at hlexed
    obtain ⟨v, hv, hcomma, helement⟩ := element_bare he hlexed.2.1
    -- The comma stays, since another expression `w` follows.
    obtain ⟨htidy, hsome⟩ := isTidy_cons he.isNode hcomma htidy
    have hliteral : ArrayLiteral (Operand budget)
        (.node .arrayExpr (.token ⟨.lBracket, ['[']⟩ :: more)) := .intro rfl hmore
    obtain ⟨f, fs, hfs⟩ := List.exists_cons_of_ne_nil hsome
    obtain ⟨w, hw, _⟩ := exists_expr?_of_mem hliteral (show f ∈ Tree.elements _ by
      rw [Tree.elements, Tree.children_node, List.filter_cons_of_neg (by simp), hfs]
      exact List.mem_cons_self ..)
    obtain ⟨ws, hws⟩ : ∃ ws, (Source.Tree.node .arrayExpr more).elementExprs = w :: ws := by
      rw [Tree.elementExprs, Tree.elements, Tree.children_node, hfs, List.filterMap_cons_some hw]
      exact ⟨_, rfl⟩
    rw [bareList_element hbefore he.isNode, ih hlexed.2.2 htidy, helement,
      elementExprs_cons he.isNode hv, hws]
    rfl

theorem arrayLiteral_bare {array : Tree} (h : ArrayLiteral (Operand budget) array)
    (hlexed : Lexed array.tokens rest) (htidy : isTidy array.children = true) :
    array.bare = plainArray (array.elementExprs.map Tree.bare) := by
  cases h with
  | @intro t children ht helements =>
    have hmark : t = ⟨.lBracket, ['[']⟩ := hlexed.1.eq_mark '[' ht rfl
    have hexprs : (Source.Tree.node .arrayExpr (.token t :: children)).elementExprs =
        (Source.Tree.node .arrayExpr children).elementExprs := by
      rw [Tree.elementExprs, Tree.elements, Tree.children_node, List.filter_cons_of_neg (by simp)]
      rfl
    have htidy : isTidy children = true := by
      rwa [Tree.children_node, isTidy, List.filter_cons_of_neg (by simp)] at htidy
    rw [hexprs, Tree.bare_node, Tree.bareList_cons (by rw [hmark]; rfl),
      elements_bare helements hlexed.2 htidy, hmark]
    rfl

theorem isTidy_insertAfter (left : List Tree) (x : Tree) {right : List Tree} (lead : List Token)
    {n : Tree} (hright : ∀ t ∈ right, t.isNode .arrayElement = false)
    (hn : n.isNode .arrayElement = true) (hlast : hasSeparator n = false) :
    isTidy (insertAfter (left ++ x :: right) left.length lead n) = true := by
  have hnone : right.filter (Tree.isNode .arrayElement) = [] := by
    rw [List.filter_eq_nil_iff]
    simpa using hright
  rw [isTidy, filter_insertAfter left right x lead hn, hnone, List.getLast?_concat, Option.all_some,
    hlast]
  rfl

theorem append_bare (layout : Layout) (level : Nat) {site : Site} {expr : Tree}
    (h : ArrayLiteral (Operand budget) site.tree) (hlexed : ∃ rest, Lexed site.tree.tokens rest)
    (hexpr : Readable budget expr) :
    (append layout site expr level).replacement.bare =
      plainArray ((site.tree.elementExprs ++ [expr]).map Tree.bare) := by
  have hrewrites := append_rewrites layout level h hexpr
  obtain ⟨rest, hlexed⟩ := hlexed
  have hrelexed : Lexed (append layout site expr level).replacement.tokens rest := by
    have := hrewrites.relexes [] [] rest
    simp only [List.nil_append, List.append_nil] at this
    exact this hlexed
  rw [← hrewrites.elementExprs]
  -- The result is an array literal of which only the end is known, and that suffices.
  refine arrayLiteral_bare hrewrites.literal hrelexed ?_
  have hlast : hasSeparator (.node .arrayElement [expr]) = false := by
    cases expr with
    | token u => cases hexpr.sequence.isExpr
    | node k cs => rfl
  obtain ⟨path, tree⟩ := site
  obtain ⟨children, rfl⟩ : ∃ children, tree = .node .arrayExpr children :=
    ⟨_, Tree.eq_node_of_isNode h.isNode⟩
  simp only [append, Tree.children_node, separated, anchor]
  rcases lastIdx?_cases (Tree.isNode .arrayElement) children with
    ⟨hnone, hall⟩ | ⟨left, e, right, rfl, _, hright, hsome⟩
  · obtain ⟨left, u, right, rfl, _, hanchor, _⟩ := anchor_of_none h hall
    simp only [lastElement?, hnone, hanchor]
    exact isTidy_insertAfter left _ _ (fun t ht => hall t (by simp [ht])) rfl hlast
  · simp only [lastElement?, hsome, modify_split]
    exact isTidy_insertAfter left _ _ hright rfl hlast

end Literal

/-! ## Inserted arguments -/

/-- Puts an argument behind the first one with a label, which gets a comma if it has none. The new
one is told whether it is the last argument. -/
def putBehind (label : List Char) (new : Bool → Tree) : List Tree → List Tree
  | [] => []
  | t :: ts =>
    if isArgument label t then withSeparator t :: new (!ts.any (Tree.isNode .argument)) :: ts
    else t :: putBehind label new ts

theorem putBehind_split {label : List Char} {left right : List Tree} {a : Tree} (new : Bool → Tree)
    (hleft : ∀ t ∈ left, isArgument label t = false) (ha : isArgument label a = true) :
    putBehind label new (left ++ a :: right) =
      left ++ withSeparator a :: new (!right.any (Tree.isNode .argument)) :: right := by
  induction left with
  | nil => rw [List.nil_append, putBehind, if_pos ha, List.nil_append]
  | cons t left ih =>
    rw [List.cons_append, putBehind, hleft t (List.mem_cons_self ..), if_neg (by decide),
      ih fun u hu => hleft u (List.mem_cons_of_mem _ hu), List.cons_append]

theorem bareList_insertAfter (left right : List Tree) (x : Tree) {n : Tree} {lead : List Token}
    (hlead : AllTrivia lead) (hn : n.isTrivia = false) :
    Tree.bareList (insertAfter (left ++ x :: right) left.length lead n) =
      Tree.bareList (left ++ [x]) ++ n.bare :: Tree.bareList right := by
  obtain ⟨inline, more, rfl, hinline, _, heq⟩ := insertAfter_split left right x n lead
  have hinline : AllTrivia inline := fun u hu => (Bool.and_eq_true_iff.1 (hinline u hu)).1
  rw [heq, List.append_cons, Tree.bareList_append, Tree.bareList_append (leaves inline),
    Tree.bareList_trivia hinline, Tree.bareList_append (leaves lead), Tree.bareList_trivia hlead,
    Tree.bareList_cons hn, Tree.bareList_append (leaves inline), Tree.bareList_trivia hinline]
  rfl

section Arguments

variable {budget : Nat}

theorem withSeparator_bare {kind : NodeKind} {separated : Bool} {e : Tree}
    (h : Element (Operand budget) kind separated e) :
    (withSeparator e).bare = withSeparator e.bare := by
  have hlast : hasSeparator e.bare = hasSeparator e := by
    cases h with
    | @bare label value hlabel hvalue =>
      have hnode := Tree.token?_of_isExpr hvalue.isExpr
      cases value with
      | token u => cases hnode
      | node k cs => simp [hasSeparator]
    | @separated label before value comma hlabel hvalue hbefore hcomma =>
      have htoken : (Tree.token comma).isTrivia = false := by
        rw [Tree.isTrivia_token, Token.isTrivia, hcomma]
        rfl
      rw [hasSeparator, hasSeparator, Tree.bare_node, Tree.children_node, Tree.children_node,
        Tree.bareList_append, Tree.bareList_cons htoken, Tree.bareList_nil, List.getLast?_concat,
        List.getLast?_concat, Tree.bare_token]
  obtain ⟨children, rfl⟩ : ∃ children, e = .node kind children :=
    ⟨_, Tree.eq_node_of_isNode h.isNode⟩
  rw [Tree.bare_node] at hlast ⊢
  rw [withSeparator, withSeparator, hlast]
  split
  · rfl
  · rw [Tree.bare_node, Tree.bareList_append]
    rfl

theorem insertAfterFirst_bare (layout : Layout) (root : Tree) {call list : Site} {new value : Tree}
    {candidates : List String} {label c : String} {ownLine : Bool}
    (hlist : call.argumentList? = some list)
    (hargs : Arguments (Operand budget) .lParen .rParen list.tree)
    (hanchor : anchorLabel? candidates (fields call.tree) = some c)
    (h : Argument.insertAfterFirst layout root call candidates label value ownLine =
      .ok ⟨list, new⟩) :
    new.bare = .node .argumentList (putBehind c.toList
      (fun last => (Argument.argument label.toList value last).bare) list.tree.bare.children) := by
  obtain ⟨children, htree⟩ : ∃ children, list.tree = .node .argumentList children :=
    ⟨_, Tree.eq_node_of_isNode hargs.isNode⟩
  have hfields : fields call.tree = (children.filter (Tree.isNode .argument)).map field := by
    rw [fields_of_argumentList? hlist, htree]
    rfl
  simp only [Argument.insertAfterFirst, hlist, htree, Tree.children_node, findSome?_anchor,
    ← hfields, hanchor, Option.bind_some] at h
  rcases find?_cases children c.toList with
    ⟨_, hlookup⟩ | ⟨left, a, right, rfl, hsome, ha, hlabel, hleft⟩
  · have hpresent := lookup?_of_anchorLabel? hanchor
    rw [hfields, hlookup] at hpresent
    cases hpresent
  · simp only [hsome, modify_split, isLast_split] at h
    obtain rfl := congrArg Edit.replacement (Except.ok.inj h)
    have hblind := blind_isArgument hargs c.toList
    rw [htree] at hargs hblind
    obtain ⟨separated, helement, _⟩ := Delimited.item hargs ha
    have hbefore : ∀ t ∈ Tree.bareList left, isArgument c.toList t = false := by
      intro t ht
      rw [Tree.bareList_eq] at ht
      obtain ⟨u, hu, rfl⟩ := List.mem_map.1 ht
      have hu := (List.mem_filter.1 hu).1
      rw [(hblind u (List.mem_append_left _ hu)).2, isArgument]
      cases hnode : u.isNode .argument with
      | false => rfl
      | true => exact hleft (field u) (List.mem_map_of_mem (List.mem_filter.2 ⟨hu, hnode⟩))
    have hargument : isArgument c.toList a.bare = true := by
      rw [(hblind a (by simp)).2, isArgument, ha, Tree.hasLabel, hlabel, beq_self_eq_true]
      rfl
    have hany : (Tree.bareList right).any (Tree.isNode .argument) =
        right.any (Tree.isNode .argument) :=
      Tree.any_bareList fun t _ => Tree.blind_isNode _ t
    have hnode := Tree.token?_of_isNode ha
    have hsep := Tree.token?_of_isNode ((isNode_withSeparator a _).trans ha)
    generalize hlead : (if (ownLine || trailingLineComment (left ++ withSeparator a :: right)
      left.length) = true then _ else oneSpace) = lead
    have hlead : AllTrivia lead := by
      rw [← hlead]
      split
      · exact allTrivia_newLine _ _
      · intro u hu
        rw [List.mem_singleton.1 hu]
        rfl
    rw [htree, Tree.bare_node, bareList_insertAfter left right _ hlead rfl, Tree.bareList_append,
      Tree.bareList_cons_of_token? hsep, withSeparator_bare helement, Tree.children_bare,
      Tree.children_node, Tree.bareList_append, Tree.bareList_cons_of_token? hnode,
      putBehind_split _ hbefore hargument, hany, Tree.bareList_nil, List.append_assoc]
    rfl

end Arguments

end PackageManifest.Proofs.Edits
