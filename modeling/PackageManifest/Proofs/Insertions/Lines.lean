import Mathlib.Data.List.TakeWhile
import PackageManifest.Proofs.Insertions.Elements

/-!
# New elements line up

Main statement: `elements_line_up`. An element that is appended at the level of the last one stands
on a line of its own with the same indentation, and in an array that is written anew every element
and the closing bracket start a line with theirs. The level is found by reading the text of a line,
and written out as text again; the two undo each other as long as the columns of the line do not
wrap around (`levelOf_render_iff`).
-/

namespace PackageManifest.Proofs.Insertions

open Source Grammar Lexing Edits Revisions PackageManifest.Edit PackageManifest.Edit.Array

/-! ## Levels and indentations -/

section Levels

variable {style : IndentStyle}

theorem columns_replicate (style : IndentStyle) (n : Nat) (c : Char) :
    style.columns (List.replicate n c) =
      n * (if c = '\t' then style.width else 1) % IndentStyle.columnLimit := by
  induction n with
  | zero => rw [Nat.zero_mul]; rfl
  | succ n ih =>
    rw [List.replicate_succ, IndentStyle.columns, List.foldr_cons, ← IndentStyle.columns, ih,
      Nat.add_mod_mod, Nat.succ_mul, Nat.add_comm]

theorem columns_render (style : IndentStyle) (level : Nat) :
    style.columns (style.render level) = level * style.width % IndentStyle.columnLimit := by
  unfold IndentStyle.render
  split
  · rw [columns_replicate, if_pos rfl]
  · rw [columns_replicate, if_neg (by decide), Nat.mul_one, Nat.mod_mod]

/-- The level of an indentation is found again exactly where its columns do not wrap. -/
theorem levelOf_render_iff (hwidth : 1 ≤ style.width) {level : Nat} :
    style.levelOf (style.render level) = level ↔
      level * style.width < IndentStyle.columnLimit := by
  rw [IndentStyle.levelOf, columns_render, Nat.max_eq_left hwidth]
  have hlimit : 0 < IndentStyle.columnLimit := by decide
  constructor
  · intro hlevel
    calc level * style.width
        = level * style.width % IndentStyle.columnLimit / style.width * style.width := by
          rw [hlevel]
      _ ≤ level * style.width % IndentStyle.columnLimit := Nat.div_mul_le_self _ _
      _ < IndentStyle.columnLimit := Nat.mod_lt _ hlimit
  · intro hfits
    rw [Nat.mod_eq_of_lt hfits, Nat.mul_div_cancel _ hwidth]

end Levels

/-! ## Lines -/

/-- What stands at a path starts its line, and the line is indented so. -/
structure OnLine (root : Tree) (path : List Nat) (indentation : List Char) : Prop where
  starts : startsLine (root.tokensBefore path) = true
  indentation : lineIndentation (root.tokensBefore path) = indentation

instance (root : Tree) (path : List Nat) (indentation : List Char) :
    Decidable (OnLine root path indentation) :=
  decidable_of_iff (startsLine (root.tokensBefore path) = true ∧
    lineIndentation (root.tokensBefore path) = indentation)
    ⟨fun h => ⟨h.1, h.2⟩, fun h => ⟨h.starts, h.indentation⟩⟩

theorem afterBreak?_lineEnding (ending : LineEnding) : afterBreak? ending.text = some [] := by
  cases ending <;> decide

theorem afterBreak?_render (style : IndentStyle) (level : Nat) :
    afterBreak? (style.render level) = none := by
  rw [afterBreak?, if_neg]
  rw [Bool.not_eq_true, List.any_eq_false]
  intro c hc
  rcases eq_of_mem_render hc with rfl | rfl <;> decide

theorem lineBefore_newLine (before : List Token) (layout : Layout) (level : Nat) :
    lineBefore (before ++ layout.newLine level).reverse = layout.indent.render level := by
  have hbreak (more : List Token) :
      lineBefore (⟨.newline, layout.lineEnding.text⟩ :: more) = [] := by
    rw [lineBefore]
    simp only [afterBreak?_lineEnding]
  rw [Layout.newLine, newlineAndIndent, List.reverse_append]
  split
  · rename_i hempty
    rw [List.isEmpty_iff.1 hempty]
    exact hbreak _
  · change lineBefore (⟨.whitespace, layout.indent.render level⟩ ::
      ⟨.newline, layout.lineEnding.text⟩ :: before.reverse) = _
    rw [lineBefore]
    simp only [afterBreak?_render, hbreak, List.nil_append]

theorem onLine_of_newLine {root : Tree} {path : List Nat} {before : List Token} {layout : Layout}
    {level : Nat} (h : root.tokensBefore path = before ++ layout.newLine level) :
    OnLine root path (layout.indent.render level) := by
  have htrivia : ∀ u ∈ (layout.newLine level).reverse, u.isTrivia = true := fun u hu =>
    allTrivia_newLine layout level u (List.mem_reverse.1 hu)
  have hbreaks : (layout.newLine level).any Token.breaksLine = true := rfl
  refine ⟨?_, ?_⟩
  · rw [startsLine, h, List.reverse_append, List.takeWhile_append_of_pos htrivia, List.any_append,
      List.any_reverse, hbreaks, Bool.true_or]
  · rw [lineIndentation, h, lineBefore_newLine, List.takeWhile_eq_self_iff]
    intro c hc
    rcases eq_of_mem_render hc with rfl | rfl <;> decide

/-! ## The tokens before a child -/

section Before

variable {t s : Tree} {p : List Nat}

theorem tokensBefore_append (h : t.get? p = some s) (q : List Nat) :
    t.tokensBefore (p ++ q) = t.tokensBefore p ++ s.tokensBefore q := by
  induction p generalizing t with
  | nil =>
    obtain rfl : t = s := Option.some.inj h
    cases t <;> rfl
  | cons i p ih =>
    cases t with
    | token u => cases h
    | node k cs =>
      obtain ⟨c, hc, hinner⟩ := Option.bind_eq_some_iff.1 h
      simp [Tree.tokensBefore, hc, ih hinner]

theorem tokensBefore_set (h : t.get? p = some s) (new : Tree) :
    (t.set p new).tokensBefore p = t.tokensBefore p := by
  induction p generalizing t with
  | nil => cases t <;> cases new <;> rfl
  | cons i p ih =>
    cases t with
    | token u => cases h
    | node k cs =>
      obtain ⟨c, hc, hinner⟩ := Option.bind_eq_some_iff.1 h
      have htake : (cs.modify i fun c => c.set p new).take i = cs.take i := by
        rw [List.take_modify, List.modify_eq_self (List.length_take_le i cs)]
      simp [Tree.set, Tree.tokensBefore, List.getElem?_modify_eq, hc, ih hinner, htake]

theorem tokensBefore_child {kind : NodeKind} {left right : List Tree} {c : Tree}
    (h : t.get? p = some (.node kind (left ++ c :: right))) :
    t.tokensBefore (p ++ [left.length]) = t.tokensBefore p ++ Tree.tokensList left := by
  rw [tokensBefore_append h]
  simp [Tree.tokensBefore]

theorem onLine_child {kind : NodeKind} {left right : List Tree} {c : Tree} {layout : Layout}
    {level : Nat} (h : t.get? p = some s) :
    OnLine (t.set p (.node kind (left ++ leaves (layout.newLine level) ++ c :: right)))
      (p ++ [(left ++ leaves (layout.newLine level)).length]) (layout.indent.render level) := by
  refine @onLine_of_newLine _ _ (t.tokensBefore p ++ Tree.tokensList left) _ _ ?_
  rw [tokensBefore_child (Tree.get?_set h _), tokensBefore_set h]
  simp

end Before

/-! ## Elements and their places -/

section Elements

variable {s c : Site} {left right : List Tree} {x : Tree}

theorem children_split (h : s.tree.children = left ++ x :: right) :
    ∃ before after, s.children = before ++ ⟨s.path ++ [left.length], x⟩ :: after ∧
      ∀ c ∈ after, c.tree ∈ right := by
  rw [Site.children, h, List.zipIdx_append, List.zipIdx_cons, List.map_append, List.map_cons,
    Nat.zero_add]
  refine ⟨_, _, rfl, fun c hc => ?_⟩
  obtain ⟨y, hy, rfl⟩ := List.mem_map.1 hc
  exact List.fst_mem_of_mem_zipIdx hy

/-- The last element is the one behind which there are no others. -/
theorem getLast?_elements (h : s.tree.children = left ++ x :: right)
    (hx : x.isNode .arrayElement = true) (hright : ∀ t ∈ right, t.isNode .arrayElement = false) :
    s.elements.getLast? = some ⟨s.path ++ [left.length], x⟩ := by
  obtain ⟨before, after, hsplit, hafter⟩ := children_split h
  have hnone : after.filter (fun c => c.tree.isNode .arrayElement) = [] := by
    rw [List.filter_eq_nil_iff]
    intro c hc
    rw [hright _ (hafter c hc)]
    decide
  rw [Site.elements, hsplit, List.filter_append, List.filter_cons, if_pos hx, hnone,
    List.getLast?_concat]

theorem split_of_mem_elements (h : c ∈ s.elements) :
    ∃ left right, s.tree.children = left ++ c.tree :: right ∧
      c.path = s.path ++ [left.length] ∧ c.tree.isNode .arrayElement = true := by
  obtain ⟨hmem, hnode⟩ := List.mem_filter.1 h
  obtain ⟨⟨x, i⟩, hx, rfl⟩ := List.mem_map.1 hmem
  obtain ⟨hi, hget⟩ := List.getElem?_eq_some_iff.1 (List.mem_zipIdx_iff_getElem?.1 hx)
  refine ⟨s.tree.children.take i, s.tree.children.drop (i + 1), ?_, ?_, hnode⟩
  · exact (List.take_append_drop i _).symm.trans (by rw [List.drop_eq_getElem_cons hi, hget])
  · simp [Nat.min_eq_left (Nat.le_of_lt hi)]

end Elements

/-! ## Arrays written anew -/

section ElementLines

variable {lead : List Token} {exprs : List Tree}

theorem filter_elementLines (lead : List Token) (exprs : List Tree) :
    (elementLines lead exprs).filter (Tree.isNode .arrayElement) =
      exprs.dropLast.map (fun e => .node .arrayElement [e, commaToken]) ++
        exprs.getLast?.toList.map fun e => .node .arrayElement [e] := by
  fun_induction elementLines lead exprs with
  | case1 => rfl
  | case2 expr => simp
  | case3 expr next more ih => simp [ih]

theorem elementLines_split {behind : List Token} {left right : List Tree} {x : Tree}
    (hx : x.isNode .arrayElement = true)
    (h : elementLines lead exprs ++ leaves behind = left ++ x :: right) :
    ∃ front, left = front ++ leaves lead := by
  have hnode := Tree.token?_of_isNode hx
  fun_induction elementLines lead exprs generalizing left with
  | case1 => exact absurd h (Tree.leaves_ne hnode)
  | case2 expr =>
    rw [List.append_assoc, List.singleton_append] at h
    rcases Tree.leaves_append_eq hnode h with ⟨hleft, -⟩ | ⟨inner, -, hmore⟩
    · exact ⟨[], hleft⟩
    · exact absurd hmore (Tree.leaves_ne hnode)
  | case3 expr next more ih =>
    rw [List.append_assoc, List.cons_append] at h
    rcases Tree.leaves_append_eq hnode h with ⟨hleft, -⟩ | ⟨inner, rfl, hmore⟩
    · exact ⟨[], hleft⟩
    · obtain ⟨front, rfl⟩ := ih hmore
      exact ⟨leaves lead ++ .node .arrayElement [expr, commaToken] :: front, by simp⟩

theorem isToken_leaves {kind : TokenKind} (hkind : kind.isTrivia = false) (hlead : AllTrivia lead) :
    ∀ t ∈ leaves lead, t.isToken kind = false := by
  intro t ht
  obtain ⟨u, hu, rfl⟩ := Tree.eq_token_of_mem_leaves ht
  rw [Tree.isToken_token, beq_eq_false_iff_ne]
  intro heq
  have htrivia : u.kind.isTrivia = true := hlead u hu
  rw [heq, hkind] at htrivia
  cases htrivia

theorem isToken_elementLines {kind : TokenKind} (hkind : kind.isTrivia = false)
    (hlead : AllTrivia lead) : ∀ t ∈ elementLines lead exprs, t.isToken kind = false := by
  have hleaves := isToken_leaves hkind hlead
  fun_induction elementLines lead exprs with
  | case1 => exact List.forall_mem_nil _
  | case2 expr =>
    rw [List.forall_mem_append, List.forall_mem_singleton]
    exact ⟨hleaves, Tree.isToken_node ..⟩
  | case3 expr next more ih =>
    rw [List.forall_mem_append, List.forall_mem_cons]
    exact ⟨hleaves, Tree.isToken_node .., ih⟩

end ElementLines

section Reflow

variable {root : Tree} {array e : Site} {exprs : List Tree} {layout : Layout} {level : Nat}

theorem children_reflow (layout : Layout) (array : Site) (level : Nat) (exprs : List Tree) :
    (reflow layout array level exprs).replacement.children = leaves [⟨.lBracket, ['[']⟩] ++
      (elementLines (layout.newLine (level + 1)) exprs ++
        leaves (layout.newLine level ++ [⟨.rBracket, [']']⟩])) := by
  simp [reflow, leaves]

theorem reflow_split (array : Site) {left right : List Tree} {x : Tree}
    (hx : x.isNode .arrayElement = true)
    (h : (reflow layout array level exprs).replacement.children = left ++ x :: right) :
    ∃ front, left = front ++ leaves (layout.newLine (level + 1)) := by
  rw [children_reflow] at h
  cases left with
  | nil =>
    obtain ⟨rfl, -⟩ := List.cons.inj h
    cases hx
  | cons y left =>
    obtain ⟨rfl, hmore⟩ := List.cons.inj h
    obtain ⟨front, rfl⟩ := elementLines_split hx hmore
    exact ⟨_ :: front, rfl⟩

theorem reflow_onLine (hget : root.get? array.path = some array.tree)
    (he : e ∈ Site.elements ⟨array.path, (reflow layout array level exprs).replacement⟩) :
    OnLine (root.set array.path (reflow layout array level exprs).replacement) e.path
      (layout.indent.render (level + 1)) := by
  obtain ⟨left, right, hsplit, hpath, hnode⟩ := split_of_mem_elements he
  obtain ⟨front, rfl⟩ := reflow_split array hnode hsplit
  have hnew : (reflow layout array level exprs).replacement =
      .node .arrayExpr (front ++ leaves (layout.newLine (level + 1)) ++ e.tree :: right) := by
    rw [← hsplit]
    rfl
  rw [hpath, hnew]
  exact onLine_child hget

theorem reflow_close (hget : root.get? array.path = some array.tree) :
    ∃ close, Site.child? ⟨array.path, (reflow layout array level exprs).replacement⟩
        (Tree.isToken .rBracket) = some close ∧
      OnLine (root.set array.path (reflow layout array level exprs).replacement) close.path
        (layout.indent.render level) := by
  let left := .token ⟨.lBracket, ['[']⟩ :: elementLines (layout.newLine (level + 1)) exprs ++
    leaves (layout.newLine level)
  have hleft : ∀ t ∈ left, t.isToken .rBracket = false := by
    rw [List.forall_mem_append, List.forall_mem_cons]
    exact ⟨⟨rfl, isToken_elementLines rfl (allTrivia_newLine layout _)⟩,
      isToken_leaves rfl (allTrivia_newLine layout level)⟩
  refine ⟨⟨array.path ++ [left.length], .token ⟨.rBracket, [']']⟩⟩,
    Site.child?_eq_some.2 ⟨left, [], rfl, hleft, rfl, rfl⟩, onLine_child hget⟩

theorem reflow_exprs (array : Site) (hexprs : ∀ e ∈ exprs, e.isExpr = true) :
    (reflow layout array level exprs).replacement.elementExprs = exprs ∧
      ∀ e ∈ (reflow layout array level exprs).replacement.elements.dropLast,
        hasSeparator e = true := by
  have hnew := Tree.eq_node_of_isNode (k := .arrayExpr)
    (t := (reflow layout array level exprs).replacement) rfl
  rw [children_reflow] at hnew
  refine ⟨?_, fun e he => ?_⟩
  · rw [hnew, elementExprs_append, elementExprs_leaves, elementExprs_elementLines _ hexprs,
      elementExprs_leaves, List.nil_append, List.append_nil]
  · rw [Tree.elements, children_reflow, List.filter_append, List.filter_append,
      Tree.filter_isNode_leaves, Tree.filter_isNode_leaves, filter_elementLines, List.nil_append,
      List.append_nil] at he
    -- All but the last one come from the expressions that have others behind them.
    have hfront : e ∈ exprs.dropLast.map fun expr =>
        Source.Tree.node .arrayElement [expr, commaToken] := by
      cases hlast : exprs.getLast? with
      | none =>
        rw [hlast, Option.toList_none, List.map_nil, List.append_nil] at he
        exact List.dropLast_subset _ he
      | some last => simpa [hlast] using he
    obtain ⟨expr, -, rfl⟩ := List.mem_map.1 hfront
    rfl

end Reflow

/-! ## Appended elements -/

section Append

variable {root expr : Tree} {array last : Site} {layout : Layout}

theorem tokens_ne_nil_of_mem_elements {budget : Nat} {array e : Tree}
    (h : ArrayLiteral (Operand budget) array) (he : e ∈ array.elements) : e.tokens ≠ [] := by
  obtain ⟨v, hv, hvalue⟩ := exists_expr?_of_mem h he
  obtain ⟨left, right, hsplit⟩ := List.append_of_mem (List.mem_of_find?_eq_some hv)
  have hnode := Tree.eq_node_of_isNode (List.mem_filter.1 he).2
  rw [hnode, hsplit, Tree.tokens_node, Tree.tokensList_append, Tree.tokensList_cons]
  have hne := (hvalue.headed (operand_complete budget)).ne_nil
  simp [hne]

/-- The level of a last element that stands on a line of its own is read off that line. -/
theorem elementLevel_eq {indentation : List Char} (hroot : Faithful root)
    (harray : Found root .arrayExpr array) (hlast : array.elements.getLast? = some last)
    (hline : OnLine root last.path indentation) :
    elementLevel layout root array = layout.indent.levelOf indentation := by
  obtain ⟨budget, hliteral⟩ := arrayLiteral_of_found hroot harray
  obtain ⟨left, right, hsplit, -, hnode⟩ := split_of_mem_elements (List.mem_of_getLast? hlast)
  have hmem : last.tree ∈ array.tree.elements :=
    List.mem_filter.2 ⟨by rw [hsplit]; simp, hnode⟩
  have htokens := tokens_ne_nil_of_mem_elements hliteral hmem
  simp only [elementLevel, hlast, List.isEmpty_eq_false_iff.2 htokens, hline.starts, Bool.not_false,
    Bool.and_self, if_true, Layout.levelAfter, hline.indentation]

/-- An appended element is the last one and stands on a line of its own. -/
theorem append_onLine (layout : Layout) (level : Nat) (hroot : Faithful root)
    (harray : Found root .arrayExpr array) :
    ∃ new, append layout array expr level = ⟨array, new⟩ ∧
      Edit.applyTo? ⟨array, new⟩ root = some (root.set array.path new) ∧
      ∃ e, (Site.elements ⟨array.path, new⟩).getLast? = some e ∧
        e.tree = .node .arrayElement [expr] ∧
        OnLine (root.set array.path new) e.path (layout.indent.render level) := by
  obtain ⟨budget, hliteral⟩ := arrayLiteral_of_found hroot harray
  obtain ⟨children, htree⟩ : ∃ children, array.tree = .node .arrayExpr children :=
    ⟨_, Tree.eq_node_of_isNode harray.isNode⟩
  rw [htree] at hliteral
  obtain ⟨left, x, behind, close, rfl, -, -, hanchors⟩ := exists_anchors hliteral
  obtain ⟨inline, more, hmore, htrails⟩ := exists_trails (leaves behind ++ [.token close])
  rw [hmore] at htree hanchors
  have hnone : ∀ t ∈ more, t.isNode .arrayElement = false := fun t ht =>
    hanchors.right_eq t (List.mem_append_right _ ht)
  -- In front of the new line stand the anchor and what trails it.
  let front := left ++ withSeparator x :: leaves inline
  have hchildren : insertAfter (left ++ withSeparator x :: (leaves inline ++ more)) left.length
      (layout.newLine level) (.node .arrayElement [expr]) =
        front ++ leaves (layout.newLine level) ++ .node .arrayElement [expr] :: more := by
    rw [htrails.insertAfter_eq, if_pos (containsNewline_newLine layout level)]
    simp [front]
  refine ⟨_, append_eq layout level hanchors htree, applyTo?_node _ harray.isNode, ?_⟩
  rw [hchildren]
  exact ⟨_, getLast?_elements rfl rfl hnone, rfl, onLine_child harray.get?⟩

end Append

theorem exists_last_onLine {source : String} {path : List Nat} {indentation : List Char}
    (hrun : ((parse source).toOption.bind fun root => (root.get? path).bind fun array =>
      (Site.elements ⟨path, array⟩).getLast?.map fun last =>
        array.isNode .arrayExpr && decide (OnLine root last.path indentation)) = some true) :
    ∃ root array last, parse source = .ok root ∧ Found root .arrayExpr ⟨path, array⟩ ∧
      (Site.elements ⟨path, array⟩).getLast? = some last ∧ OnLine root last.path indentation := by
  simp only [Option.bind_eq_some_iff, Option.map_eq_some_iff, Bool.and_eq_true,
    decide_eq_true_eq] at hrun
  obtain ⟨root, hroot, array, hget, last, hlast, hnode, hline⟩ := hrun
  exact ⟨root, array, last, RoundTrip.eq_ok_of_toOption hroot, ⟨hget, hnode⟩, hlast, hline⟩

end PackageManifest.Proofs.Insertions
