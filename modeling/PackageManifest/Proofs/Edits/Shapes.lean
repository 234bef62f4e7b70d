import PackageManifest.Proofs.Edits.Arguments
import PackageManifest.Proofs.Grammar.Shapes

/-!
# Edited lists have their shape

An element gets a comma at its end, and a new element goes behind another one that has a comma, or
into a list without elements. Both leave the delimiters where they are, so a list stays a list. What
is built anew is built by the rules of the grammar, over values that have their shape.
-/

namespace PackageManifest.Proofs.Edits

open Source Grammar Shapes PackageManifest.Edit PackageManifest.Edit.Array

/-! ## Commas of elements -/

/-- What is said of the commas in a list, element by element. -/
theorem separated_append_cons {item : NodeKind} {left right : List Tree} {e : Tree}
    (he : e.isNode item = true) :
    Separated item (left ++ e :: right) ↔
      (∀ x ∈ left, x.isNode item = true → x.hasComma = true) ∧
        (right.any (Tree.isNode item) = true → e.hasComma = true) ∧ Separated item right := by
  have hany : right.any (Tree.isNode item) = true ↔ right.filter (Tree.isNode item) ≠ [] := by
    rw [Ne, List.filter_eq_nil_iff, List.any_eq_true]
    simp
  rw [Separated, Separated, List.filter_append, List.filter_cons_of_pos he, hany]
  cases right.filter (Tree.isNode item) with
  | nil =>
    rw [List.dropLast_concat]
    simp [List.mem_filter]
  | cons f fs =>
    rw [List.dropLast_append_cons, List.dropLast_cons_cons]
    simp [List.mem_filter, or_imp, forall_and]

theorem separated_of_append {item : NodeKind} {left right : List Tree}
    (h : Separated item (left ++ right)) : Separated item right := by
  intro e he
  refine h e ?_
  have hne : right.filter (Tree.isNode item) ≠ [] := by
    intro hnil
    rw [hnil] at he
    cases he
  rw [List.filter_append, List.dropLast_append_of_ne_nil hne]
  exact List.mem_append_right _ he

theorem withSeparator_shaped {e : Tree} (h : Shaped e) (he : isItem e = true) :
    Shaped (withSeparator e) ∧ (withSeparator e).hasComma = true := by
  cases h with
  | token t => cases he
  | @node kind children hshape hchildren =>
    rw [isItem_node] at he
    have helement := hshape.element he
    rw [withSeparator]
    cases hseparator : hasSeparator (.node kind children) with
    | true =>
      rw [if_pos rfl]
      refine ⟨.node hshape hchildren, ?_⟩
      rwa [Elemental.hasComma_eq helement]
    | false =>
      rw [if_neg (by decide)]
      have hnone : Kind.token .comma ∉ children.map Tree.kind := by
        rw [← Elemental.hasComma_eq helement, ← Bool.not_eq_true, hasComma_iff] at hseparator
        exact hseparator
      obtain ⟨first, hfirst, hsignificant⟩ := hshape.tight.first
      obtain ⟨more, hkinds⟩ := List.head?_eq_some_iff.1 hfirst
      have hall : (children ++ [commaToken]).map Tree.kind =
          children.map Tree.kind ++ [.token .comma] := List.map_append
      refine ⟨.node ⟨?_, fun item hitem => ?_, fun _ => ?_⟩ ?_, ?_⟩
      · rw [hall]
        refine ⟨⟨first, by rw [hkinds]; rfl, hsignificant⟩, _, List.getLast?_concat, rfl⟩
      · rw [isItemKind_of_list hitem] at he
        cases he
      · rw [hall]
        refine ⟨?_, by rwa [List.dropLast_concat], fun hkind => ?_⟩
        · rw [List.countP_append, helement.value]
          rfl
        · have hlabel := helement.label hkind
          rw [hkinds] at hlabel ⊢
          rw [List.mem_append, hlabel]
          simp
      · exact forall_mem_append_cons hchildren (.token _) (by simp)
      · rw [hasComma_iff, Tree.children_node, hall]
        simp

theorem kind_withSeparator (e : Tree) : (withSeparator e).kind = e.kind := by
  cases e with
  | token t => rfl
  | node kind children =>
    rw [withSeparator]
    split <;> rfl

section Lists

variable {whole item : NodeKind} {left right : List Tree}

theorem isItem_of_isNode (hitem : itemKind? whole = some item) {e : Tree}
    (he : e.isNode item = true) : isItem e = true := by
  rw [Tree.eq_node_of_isNode he, isItem_node, isItemKind_of_itemKind? hitem]

theorem shaped_separator {e : Tree} (hitem : itemKind? whole = some item)
    (h : Shaped (.node whole (left ++ e :: right))) (he : e.isNode item = true) :
    Shaped (.node whole (left ++ withSeparator e :: right)) := by
  cases h with
  | node hshape hchildren =>
    obtain ⟨hshaped, hcomma⟩ :=
      withSeparator_shaped (hchildren e (by simp)) (isItem_of_isNode hitem he)
    have hkinds : (left ++ withSeparator e :: right).map Tree.kind =
        (left ++ e :: right).map Tree.kind := by
      rw [List.map_append, List.map_append, List.map_cons, List.map_cons, kind_withSeparator]
    have hnode : (withSeparator e).isNode item = true := by rw [isNode_withSeparator, he]
    refine .node ⟨hkinds ▸ hshape.tight, fun other hother => ?_, hkinds ▸ hshape.element⟩
      (forall_mem_replaced hchildren hshaped)
    obtain rfl := Option.some.inj (hitem.symm.trans hother)
    obtain ⟨henclosed, hseparated⟩ := hshape.list item hitem
    obtain ⟨hleft, _, hright⟩ := (separated_append_cons he).1 hseparated
    exact ⟨hkinds ▸ henclosed, (separated_append_cons hnode).2 ⟨hleft, fun _ => hcomma, hright⟩⟩

/-! ## A new element -/

theorem enclosed_insert {ks ms new : List Kind} (h : Enclosed item (ks ++ ms)) (hks : ks ≠ [])
    (hms : ms ≠ []) (hnew : ∀ k ∈ new, isTriviaKind k = true ∨ k = .node item) :
    Enclosed item (ks ++ (new ++ ms)) := by
  obtain ⟨opening, close, inside, heq, hclose, hinside⟩ := h
  cases ks with
  | nil => exact absurd rfl hks
  | cons k ks =>
    rcases List.eq_nil_or_concat ms with rfl | ⟨init, last, rfl⟩
    · exact absurd rfl hms
    · rw [List.concat_eq_append, List.cons_append, ← List.append_assoc] at heq
      obtain ⟨rfl, hrest⟩ := List.cons.inj heq
      obtain ⟨rfl, hlast⟩ := List.append_inj' hrest rfl
      rw [List.singleton_inj.1 hlast]
      refine ⟨opening, close, ks ++ (new ++ init), by simp, hclose, ?_⟩
      rw [List.forall_mem_append] at hinside
      simp only [List.forall_mem_append]
      exact ⟨hinside.1, hnew, hinside.2⟩

theorem enclosed_last {ks : List Kind} {k : Kind} (h : Enclosed item (ks ++ [k])) :
    k.onToken TokenKind.isClosing = true := by
  obtain ⟨opening, close, inside, heq, hclose, _⟩ := h
  rw [← List.cons_append] at heq
  obtain ⟨_, hlast⟩ := List.append_inj' heq rfl
  rw [List.singleton_inj.1 hlast]
  cases opening <;> cases hclose <;> rfl

/-- A new element between the front of a list, of which every element has a comma, and the rest. It
has a comma itself if others follow it. -/
theorem shaped_insert {front more : List Tree} {n : Tree} {lead : List Token}
    (hitem : itemKind? whole = some item) (h : Shaped (.node whole (front ++ more)))
    (hfront : front ≠ [])
    (hlast : ∀ y, front.getLast? = some y → y.kind.onToken TokenKind.isClosing = false)
    (hcommas : ∀ y ∈ front, y.isNode item = true → y.hasComma = true)
    (hlead : AllTrivia lead) (hn : Shaped n) (hnode : n.isNode item = true)
    (hcomma : more.any (Tree.isNode item) = true → n.hasComma = true) :
    Shaped (.node whole (front ++ leaves lead ++ n :: more)) := by
  cases h with
  | node hshape hchildren =>
    obtain ⟨henclosed, hseparated⟩ := hshape.list item hitem
    have hmore : more.map Tree.kind ≠ [] := by
      intro hnil
      rw [List.map_append, hnil, List.append_nil] at henclosed
      rcases List.eq_nil_or_concat front with rfl | ⟨init, y, rfl⟩
      · exact hfront rfl
      · rw [List.concat_eq_append, List.map_append] at henclosed
        have hclosing := enclosed_last henclosed
        rw [hlast y (by simp)] at hclosing
        cases hclosing
    have hinside : ∀ k ∈ (leaves lead ++ [n]).map Tree.kind,
        isTriviaKind k = true ∨ k = .node item := by
      rw [List.forall_mem_map, List.forall_mem_append]
      refine ⟨fun c hc => ?_, fun c hc => ?_⟩
      · obtain ⟨u, hu, rfl⟩ := Tree.eq_token_of_mem_leaves hc
        exact .inl (hlead u hu)
      · rw [List.mem_singleton.1 hc]
        exact .inr (beq_iff_eq.1 hnode)
    have hnew : Enclosed item ((front ++ leaves lead ++ n :: more).map Tree.kind) := by
      rw [List.map_append] at henclosed
      have := enclosed_insert henclosed (by simpa using hfront) hmore hinside
      simpa using this
    refine .node ⟨hnew.tight, fun other hother => ?_, fun hother => ?_⟩ ?_
    · obtain rfl := Option.some.inj (hitem.symm.trans hother)
      refine ⟨hnew, (separated_append_cons hnode).2 ⟨fun y hy hynode => ?_, hcomma, ?_⟩⟩
      · rcases List.mem_append.1 hy with hy | hy
        · exact hcommas y hy hynode
        · obtain ⟨u, _, rfl⟩ := Tree.eq_token_of_mem_leaves hy
          cases hynode
      · exact separated_of_append hseparated
    · rw [isItemKind_of_list hitem] at hother
      cases hother
    · rw [List.forall_mem_append] at hchildren
      refine forall_mem_append_cons ?_ hn hchildren.2
      rw [List.forall_mem_append]
      exact ⟨hchildren.1, shaped_leaves lead⟩

theorem isClosing_of_isTrivia {kind : TokenKind} (h : kind.isTrivia = true) :
    kind.isClosing = false := by
  cases kind <;> first | rfl | cases h

theorem shaped_insertAfter {x n : Tree} {lead : List Token} (hitem : itemKind? whole = some item)
    (h : Shaped (.node whole (left ++ x :: right)))
    (hx : x.kind.onToken TokenKind.isClosing = false)
    (hcommas : ∀ y ∈ left ++ [x], y.isNode item = true → y.hasComma = true)
    (hlead : AllTrivia lead) (hn : Shaped n) (hnode : n.isNode item = true)
    (hcomma : right.any (Tree.isNode item) = true → n.hasComma = true) :
    Shaped (.node whole (insertAfter (left ++ x :: right) left.length lead n)) := by
  obtain ⟨inline, more, rfl, hinline, _, hinsert⟩ := insertAfter_split left right x n lead
  have hold : left ++ x :: (leaves inline ++ more) = (left ++ x :: leaves inline) ++ more := by
    simp
  have hnew : left ++ x :: (leaves inline ++ (leaves lead ++ n :: more)) =
      (left ++ x :: leaves inline) ++ leaves lead ++ n :: more := by simp
  rw [hold] at h
  rw [hinsert, hnew]
  refine shaped_insert hitem h (by simp) (fun y hy => ?_) (fun y hy hynode => ?_) hlead hn hnode
    fun hany => hcomma (by rw [List.any_append, hany, Bool.or_true])
  · have hlast : (x :: leaves inline).getLast? = some y := by simpa using hy
    rcases List.mem_cons.1 (List.mem_of_getLast? hlast) with rfl | hy
    · exact hx
    · obtain ⟨u, hu, rfl⟩ := Tree.eq_token_of_mem_leaves hy
      have htrivia : u.kind.isTrivia = true := (Bool.and_eq_true_iff.1 (hinline u hu)).1
      exact isClosing_of_isTrivia htrivia
  · rw [List.append_cons] at hy
    rcases List.mem_append.1 hy with hy | hy
    · exact hcommas y hy hynode
    · obtain ⟨u, _, rfl⟩ := Tree.eq_token_of_mem_leaves hy
      cases hynode

theorem shaped_insertBehind {e n : Tree} {lead : List Token} (hitem : itemKind? whole = some item)
    (h : Shaped (.node whole (left ++ e :: right))) (he : e.isNode item = true)
    (hlead : AllTrivia lead) (hn : Shaped n) (hnode : n.isNode item = true)
    (hcomma : right.any (Tree.isNode item) = true → n.hasComma = true) :
    Shaped (.node whole (insertAfter (left ++ withSeparator e :: right) left.length lead n)) := by
  have hspaced := shaped_separator hitem h he
  have hkind : (withSeparator e).kind = .node item := by
    rw [kind_withSeparator, beq_iff_eq.1 he]
  refine shaped_insertAfter hitem hspaced (by rw [hkind]; rfl) (fun y hy hynode => ?_) hlead hn
    hnode hcomma
  cases h with
  | node hshape hchildren =>
    obtain ⟨hleft, _⟩ := (separated_append_cons he).1 (hshape.list item hitem).2
    rcases List.mem_append.1 hy with hy | hy
    · exact hleft y hy hynode
    · rw [List.mem_singleton.1 hy]
      exact (withSeparator_shaped (hchildren e (by simp)) (isItem_of_isNode hitem he)).2

end Lists

/-! ## Values -/

def Value (t : Tree) : Prop := Shaped t ∧ t.isExpr = true

theorem Value.shaped {t : Tree} (h : Value t) : Shaped t := h.1

theorem Value.isExpr {t : Tree} (h : Value t) : t.isExpr = true := h.2

theorem shaped_element {kind : NodeKind} {separated : Bool} {e : Tree}
    (hkind : isItemKind kind = true) (h : Element Value kind separated e) :
    Shaped e ∧ (separated = true → e.hasComma = true) :=
  h.shaped (fun _ => Value.shaped) (fun _ => Value.isExpr) hkind

/-! ## Arrays -/

section Arrays

variable {site : Site} {expr : Tree}

theorem separate_shaped (h : Shaped site.tree) (hsite : site.tree.isNode .arrayExpr = true) :
    Shaped (separate site).replacement := by
  obtain ⟨path, tree⟩ := site
  obtain ⟨children, rfl⟩ : ∃ children, tree = .node .arrayExpr children :=
    ⟨_, Tree.eq_node_of_isNode hsite⟩
  simp only [separate, separated, lastElement?, Tree.children_node]
  rcases lastIdx?_cases (Tree.isNode .arrayElement) children with
    ⟨hlast, _⟩ | ⟨left, e, right, rfl, he, _, hlast⟩
  · rw [hlast]
    exact h
  · simp only [hlast, modify_split]
    exact shaped_separator rfl h he

/-- Without elements, the anchor is the bracket or a comment. -/
theorem anchor_split {children : List Tree} (h : Shaped (.node .arrayExpr children))
    (hnone : ∀ t ∈ children, t.isNode .arrayElement = false) :
    ∃ left x right, children = left ++ x :: right ∧ anchor children = left.length ∧
      x.kind.onToken TokenKind.isClosing = false := by
  have hanchor : anchor children = (lastIdx? Tree.isComment children).getD 0 := by
    rcases lastIdx?_cases (Tree.isNode .arrayElement) children with
      ⟨hlast, _⟩ | ⟨left, e, right, rfl, he, _, _⟩
    · rw [anchor, lastElement?, hlast]
    · rw [hnone e (by simp)] at he
      cases he
  rw [hanchor]
  rcases lastIdx?_cases Tree.isComment children with
    ⟨hcomment, _⟩ | ⟨left, x, right, rfl, hx, _, hcomment⟩
  · cases h with
    | node hshape _ =>
      obtain ⟨opening, close, inside, hkinds, hclose, _⟩ := (hshape.list .arrayElement rfl).1
      obtain ⟨x, right, rfl, hx, _⟩ := List.map_eq_cons_iff.1 hkinds
      refine ⟨[], x, right, rfl, by rw [hcomment]; rfl, ?_⟩
      rw [hx]
      cases opening <;> cases hclose <;> rfl
  · refine ⟨left, x, right, rfl, by rw [hcomment]; rfl, ?_⟩
    cases x with
    | token u =>
      have hinline := isInlineTrivia_of_isComment (show u.kind.isComment = true from hx)
      exact isClosing_of_isTrivia (Bool.and_eq_true_iff.1 hinline).1
    | node kind cs => cases hx

theorem append_shaped (layout : Layout) (level : Nat) (h : Shaped site.tree)
    (hsite : site.tree.isNode .arrayExpr = true) (hexpr : Value expr) :
    Shaped (append layout site expr level).replacement := by
  obtain ⟨path, tree⟩ := site
  obtain ⟨children, rfl⟩ : ∃ children, tree = .node .arrayExpr children :=
    ⟨_, Tree.eq_node_of_isNode hsite⟩
  have hnew := (shaped_element rfl (element_single (.single hexpr))).1
  have hlead := allTrivia_newLine layout level
  simp only [append, separated, Tree.children_node]
  rcases lastIdx?_cases (Tree.isNode .arrayElement) children with
    ⟨hlast, hnone⟩ | ⟨left, e, right, rfl, he, hright, hlast⟩
  · obtain ⟨left, x, right, rfl, hanchor, hx⟩ := anchor_split h hnone
    simp only [lastElement?, hlast, hanchor]
    refine shaped_insertAfter rfl h hx (fun y hy hynode => ?_) hlead hnew rfl fun hany => ?_
    · rw [hnone y (by rw [List.append_cons]; exact List.mem_append_left _ hy)] at hynode
      cases hynode
    · obtain ⟨y, hy, hynode⟩ := List.any_eq_true.1 hany
      rw [hnone y (by simp [hy])] at hynode
      cases hynode
  · simp only [anchor, lastElement?, hlast, modify_split]
    refine shaped_insertBehind rfl h he hlead hnew rfl fun hany => ?_
    obtain ⟨y, hy, hynode⟩ := List.any_eq_true.1 hany
    rw [hright y hy] at hynode
    cases hynode

theorem reflow_shaped (layout : Layout) (site : Site) (level : Nat) {exprs : List Tree}
    (hexprs : ∀ e ∈ exprs, Value e) : Shaped (reflow layout site level exprs).replacement := by
  have helements : Elements Value .arrayElement .rBracket
      (elementLines (layout.newLine (level + 1)) exprs ++
        (leaves (layout.newLine level) ++ [.token ⟨.rBracket, [']']⟩])) :=
    elements_elementLines (allTrivia_newLine layout _) (fun e he => .single (hexprs e he))
      (allTrivia_newLine layout level) rfl
  have hlist : ArrayLiteral Value (reflow layout site level exprs).replacement := by
    rw [reflow, List.cons_append, List.cons_append, List.append_assoc]
    exact .intro rfl helements
  exact hlist.shaped (fun _ => Value.shaped) (fun _ => Value.isExpr) rfl rfl

end Arrays

/-! ## Arguments -/

theorem findSome?_find? {candidates : List String} {children : List Tree} {i : Nat}
    (h : (candidates.findSome? fun c => Argument.find? children c.toList) = some i) :
    ∃ left a right, children = left ++ a :: right ∧ i = left.length ∧
      a.isNode .argument = true := by
  obtain ⟨c, _, hc⟩ := List.exists_of_findSome?_eq_some h
  rcases find?_cases children c.toList with
    ⟨hnone, _⟩ | ⟨left, a, right, rfl, hsome, ha, _⟩
  · rw [hnone] at hc
    cases hc
  · rw [hsome] at hc
    exact ⟨left, a, right, rfl, (Option.some.inj hc).symm, ha⟩

theorem insertAfterFirst_shaped {layout : Layout} {root : Tree} {call list : Site}
    {candidates : List String} {label : String} {value : Tree} {ownLine : Bool} {edit : Edit}
    (hlist : call.argumentList? = some list) (h : Shaped list.tree) (hvalue : Value value)
    (hedit : Argument.insertAfterFirst layout root call candidates label value ownLine =
      .ok edit) :
    edit.site = list ∧ Shaped edit.replacement := by
  have hnode : list.tree.isNode .argumentList = true := by
    have := List.find?_some hlist
    exact this
  obtain ⟨path, tree⟩ := list
  obtain ⟨children, rfl⟩ : ∃ children, tree = .node .argumentList children :=
    ⟨_, Tree.eq_node_of_isNode hnode⟩
  simp only [Argument.insertAfterFirst, hlist, Tree.children_node] at hedit
  split at hedit
  · cases hedit
  · rename_i i hi
    obtain ⟨left, a, right, rfl, rfl, ha⟩ := findSome?_find? hi
    cases hedit
    obtain ⟨hnew, hcomma⟩ := shaped_element rfl (element_argument label.toList (.single hvalue)
      (Argument.isLast (left ++ a :: right) left.length))
    refine ⟨rfl, ?_⟩
    simp only [modify_split]
    refine shaped_insertBehind rfl h ha ?_ hnew rfl fun hany => ?_
    · refine LeadsIn.allTrivia (u := ⟨.comma, [',']⟩) ?_
      split
      · exact .inl ⟨layout, _, rfl⟩
      · exact .inr ⟨rfl, rfl⟩
    · exact hcomma (by rw [isLast_split, hany]; rfl)

end PackageManifest.Proofs.Edits
