import PackageManifest.Proofs.Insertions.Places
import PackageManifest.Proofs.Rereading

/-!
# Appending to an array

Main statement: `append_inserts`. A new element is written on a line of its own behind the last one
and what trails it, which gets a comma if it lacks one. The rest of the array stays as it is.
-/

namespace PackageManifest.Proofs.Insertions

open Source Grammar Lexing Shapes Edits Revisions PackageManifest.Edit PackageManifest.Edit.Array

/-! ## Where an element is appended -/

theorem lastIdx?_split {p : Tree → Bool} {x : Tree} {right : List Tree} (left : List Tree)
    (hx : p x = true) (hright : ∀ t ∈ right, p t = false) :
    lastIdx? p (left ++ x :: right) = some left.length := by
  have hnone : (right.zipIdx (left.length + 1)).reverse.find? (fun y => p y.1) = none := by
    rw [List.find?_eq_none]
    intro y hy
    rw [hright y.1 (List.fst_mem_of_mem_zipIdx (List.mem_reverse.1 hy))]
    decide
  simp [lastIdx?, List.zipIdx_append, List.zipIdx_cons, List.find?_append, hnone, hx]

theorem lastIdx?_eq_none {p : Tree → Bool} {trees : List Tree} (h : ∀ t ∈ trees, p t = false) :
    lastIdx? p trees = none := by
  rcases lastIdx?_cases p trees with ⟨hnone, _⟩ | ⟨left, x, right, rfl, hx, _⟩
  · exact hnone
  · rw [h x (by simp)] at hx
    cases hx

/-- A new element of an array goes behind the last one, without elements behind the last comment,
and without comments behind the bracket. -/
inductive Anchors (left : List Tree) (x : Tree) (right : List Tree) : Prop
  | element : x.isNode .arrayElement = true →
      (∀ t ∈ right, t.isNode .arrayElement = false) → Anchors left x right
  | comment : (∀ t ∈ left ++ x :: right, t.isNode .arrayElement = false) →
      x.isComment = true → (∀ t ∈ right, t.isComment = false) → Anchors left x right
  | bracket : (∀ t ∈ left ++ x :: right, t.isNode .arrayElement = false) →
      (∀ t ∈ left ++ x :: right, t.isComment = false) →
      left = [] → x.isToken .lBracket = true → Anchors left x right

theorem exists_anchors_of_leaves {bracket close : Token} {inside : List Token}
    (hbracket : bracket.kind = .lBracket) (hclose : close.kind = .rBracket)
    (hinside : AllTrivia inside) :
    ∃ left x behind,
      Source.Tree.token bracket :: (leaves inside ++ [.token close]) =
        left ++ x :: (leaves behind ++ [.token close]) ∧
      AllTrivia behind ∧ Anchors left x (leaves behind ++ [.token close]) := by
  have hnone : ∀ t ∈ Source.Tree.token bracket :: (leaves inside ++ [.token close]),
      t.isNode .arrayElement = false := by
    have hleaves : ∀ t ∈ leaves (bracket :: inside ++ [close]), t.isNode .arrayElement = false := by
      intro t ht
      obtain ⟨u, _, rfl⟩ := Tree.eq_token_of_mem_leaves ht
      exact Tree.isNode_token ..
    simpa [leaves] using hleaves
  rcases lastIdx?_cases Tree.isComment (.token bracket :: (leaves inside ++ [.token close])) with
    ⟨_, hcomment⟩ | ⟨left, x, right, heq, hx, hright, _⟩
  · exact ⟨[], .token bracket, inside, rfl, hinside,
      .bracket hnone hcomment rfl (beq_iff_eq.2 (congrArg Kind.token hbracket))⟩
  · cases left with
    | nil =>
      -- The bracket is no comment.
      obtain ⟨rfl, _⟩ := List.cons.inj heq
      rw [Tree.isComment_token, hbracket] at hx
      cases hx
    | cons y left =>
      obtain ⟨rfl, hsplit⟩ := List.cons.inj heq
      obtain ⟨before, u, behind, rfl, rfl, rfl, rfl⟩ := leaves_split hsplit hx hclose
      have hbehind : AllTrivia behind := fun v hv => hinside v (by simp [hv])
      rw [hsplit] at hnone ⊢
      exact ⟨.token bracket :: leaves before, .token u, behind, rfl, hbehind,
        .comment hnone hx hright⟩

/-- Behind the anchor of an array there is only trivia before the closing bracket. -/
theorem exists_anchors {budget : Nat} {children : List Tree}
    (h : ArrayLiteral (Operand budget) (.node .arrayExpr children)) :
    ∃ left x behind close, children = left ++ x :: (leaves behind ++ [.token close]) ∧
      AllTrivia behind ∧ close.kind = .rBracket ∧
      Anchors left x (leaves behind ++ [.token close]) := by
  rcases lastIdx?_cases (Tree.isNode .arrayElement) children with
    ⟨-, hnone⟩ | ⟨left, e, right, rfl, he, hright, -⟩
  · cases h with
    | intro hbracket helements =>
      obtain ⟨inside, close, hinside, hclose, rfl⟩ := helements.eq_of_all_leaves
        (any_isNode_eq_false fun t ht => hnone t (List.mem_cons_of_mem _ ht))
      obtain ⟨left, x, behind, hsplit, hbehind, hanchors⟩ :=
        exists_anchors_of_leaves hbracket hclose hinside
      exact ⟨left, x, behind, close, hsplit, hbehind, hclose, hanchors⟩
  · obtain ⟨behind, close, hbehind, hclose, rfl⟩ :=
      (delimited_behind h he).1.eq_of_all_leaves (any_isNode_eq_false hright)
    exact ⟨left, e, behind, close, rfl, hbehind, hclose, .element he hright⟩

def lastComma (array : Tree) : List Token :=
  (array.elements.getLast?.map missingComma).getD []

namespace Anchors

variable {left right : List Tree} {x : Tree}

theorem right_eq (h : Anchors left x right) : ∀ t ∈ right, t.isNode .arrayElement = false := by
  cases h with
  | element _ hright => exact hright
  | comment hnone _ _ => exact fun t ht => hnone t (by simp [ht])
  | bracket hnone _ _ _ => exact fun t ht => hnone t (by simp [ht])

/-- An anchor that is no element is a token, and there are no elements before it. -/
theorem cases_element (h : Anchors left x right) :
    x.isNode .arrayElement = true ∨
      ((∀ t ∈ left ++ x :: right, t.isNode .arrayElement = false) ∧ ∃ u, x = .token u) := by
  cases h with
  | element he _ => exact .inl he
  | comment hnone hx _ =>
    cases x with
    | token u => exact .inr ⟨hnone, u, rfl⟩
    | node kind children => cases hx
  | bracket hnone _ _ hx =>
    cases x with
    | token u => exact .inr ⟨hnone, u, rfl⟩
    | node kind children =>
      rw [Tree.isToken_node] at hx
      cases hx

theorem anchor_eq (h : Anchors left x right) : anchor (left ++ x :: right) = left.length := by
  cases h with
  | element he hright => rw [anchor, lastElement?, lastIdx?_split left he hright]
  | comment hnone hx hright =>
    rw [anchor, lastElement?, lastIdx?_eq_none hnone, lastIdx?_split left hx hright]
    rfl
  | bracket hnone hcomment hleft _ =>
    rw [anchor, lastElement?, lastIdx?_eq_none hnone, lastIdx?_eq_none hcomment, hleft]
    rfl

theorem separated_eq (h : Anchors left x right) :
    separated (left ++ x :: right) = left ++ withSeparator x :: right := by
  rcases h.cases_element with he | ⟨hnone, u, rfl⟩
  · simp only [separated, lastElement?, lastIdx?_split left he h.right_eq, modify_split]
  · simp only [separated, lastElement?, lastIdx?_eq_none hnone]
    rfl

theorem elements_eq (h : Anchors left x right) :
    (left ++ x :: right).filter (Tree.isNode .arrayElement) =
      (left ++ [x]).filter (Tree.isNode .arrayElement) := by
  have hright : right.filter (Tree.isNode .arrayElement) = [] := by
    rw [List.filter_eq_nil_iff]
    simpa using h.right_eq
  rw [List.append_cons, List.filter_append, hright, List.append_nil]

theorem tokens_eq (h : Anchors left x right) :
    (withSeparator x).tokens = x.tokens ++ lastComma (.node .arrayExpr (left ++ x :: right)) := by
  rw [lastComma, Tree.elements, Tree.children_node, h.elements_eq, List.filter_append]
  rcases h.cases_element with he | ⟨hnone, u, rfl⟩
  · rw [List.filter_cons_of_pos he, List.filter_nil, List.getLast?_concat]
    exact tokens_withSeparator he
  · -- A token gets no comma, and no element is there to lack one.
    have hleft : left.filter (Tree.isNode .arrayElement) = [] := by
      rw [List.filter_eq_nil_iff]
      intro t ht
      rw [hnone t (by simp [ht])]
      decide
    rw [hleft]
    rfl

theorem hasSeparator_eq (h : Anchors left x right)
    (hshaped : Shaped (.node .arrayExpr (left ++ x :: right))) :
    ∀ e ∈ (left ++ [withSeparator x]).filter (Tree.isNode .arrayElement),
      hasSeparator e = true := by
  rw [List.filter_append, List.forall_mem_append]
  rcases h.cases_element with he | ⟨hnone, u, rfl⟩
  · have hcommas := hasSeparator_of_shaped rfl hshaped
    rw [h.elements_eq, List.filter_append, List.filter_cons_of_pos he, List.filter_nil,
      List.dropLast_concat] at hcommas
    refine ⟨hcommas, fun e hmem => ?_⟩
    rw [List.mem_singleton.1 (List.mem_filter.1 hmem).1]
    exact hasSeparator_withSeparator he
  · refine ⟨fun e hmem => ?_, fun e hmem => ?_⟩
    · obtain ⟨hmem, hnode⟩ := List.mem_filter.1 hmem
      rw [hnone e (by simp [hmem])] at hnode
      cases hnode
    · cases hmem

theorem elementExprs_eq (h : Anchors left x right) :
    (Source.Tree.node .arrayExpr (left ++ [withSeparator x])).elementExprs =
      (Source.Tree.node .arrayExpr (left ++ x :: right)).elementExprs := by
  have hvalues : (Source.Tree.node .arrayExpr (left ++ [withSeparator x])).elementExprs =
      (Source.Tree.node .arrayExpr (left ++ [x])).elementExprs := by
    rcases h.cases_element with he | ⟨_, u, rfl⟩
    · exact elementExprs_withSeparator left [] he
    · rfl
  rw [hvalues, Tree.elementExprs, Tree.elementExprs, Tree.elements, Tree.elements,
    Tree.children_node, Tree.children_node, h.elements_eq]

end Anchors

/-- A second comma is never put behind the last element. -/
theorem separated_separated (children : List Tree) :
    separated (separated children) = separated children := by
  rcases lastIdx?_cases (Tree.isNode .arrayElement) children with
    ⟨hlast, _⟩ | ⟨left, e, right, rfl, he, hright, hlast⟩
  · have hself : separated children = children := by rw [separated, lastElement?, hlast]
    rw [hself, hself]
  · have hsep : (withSeparator e).isNode .arrayElement = true := by rw [isNode_withSeparator, he]
    simp only [separated, lastElement?, hlast, modify_split, lastIdx?_split left hsep hright,
      withSeparator_withSeparator]

/-! ## Appending -/

theorem arrayLiteral_of_found {root : Tree} {array : Site} (hroot : Faithful root)
    (harray : Found root .arrayExpr array) :
    ∃ budget, ArrayLiteral (Operand budget) array.tree := by
  obtain ⟨room, _, hold, _⟩ := Rereading.exists_room hroot harray (.inl rfl) 0
  exact ⟨room, Chain.arrayLiteral hold harray.isNode⟩

section Append

variable {array : Site} {expr x : Tree} {left more : List Tree} {inline : List Token}

theorem append_eq (layout : Layout) (level : Nat) {right : List Tree}
    (h : Anchors left x right) (htree : array.tree = .node .arrayExpr (left ++ x :: right)) :
    append layout array expr level = ⟨array, .node .arrayExpr
      (insertAfter (left ++ withSeparator x :: right) left.length (layout.newLine level)
        (.node .arrayElement [expr]))⟩ := by
  rw [append, htree, Tree.children_node, h.anchor_eq, h.separated_eq]

theorem elements_insertAfter (lead : List Token) {right : List Tree} (h : Anchors left x right) :
    (Source.Tree.node .arrayExpr (insertAfter (left ++ withSeparator x :: right) left.length lead
        (.node .arrayElement [expr]))).elements =
      (left ++ [withSeparator x]).filter (Tree.isNode .arrayElement) ++
        [.node .arrayElement [expr]] := by
  have hright : right.filter (Tree.isNode .arrayElement) = [] := by
    rw [List.filter_eq_nil_iff]
    simpa using h.right_eq
  rw [Tree.elements, Tree.children_node, filter_insertAfter _ _ _ _ rfl, hright]

theorem text_insertAfter (layout : Layout) (level : Nat)
    (h : Anchors left x (leaves inline ++ more)) (htrails : Trails inline more) :
    (Source.Tree.node .arrayExpr (insertAfter (left ++ withSeparator x :: (leaves inline ++ more))
        left.length (layout.newLine level) (.node .arrayElement [expr]))).text =
      textOf (Tree.tokensList (left ++ [x])) ++
        textOf (lastComma (.node .arrayExpr (left ++ x :: (leaves inline ++ more)))) ++
        textOf inline ++ (layout.lineEnding.text ++ layout.indent.render level ++ expr.text) ++
        textOf (Tree.tokensList more) := by
  rw [Tree.text, Tree.tokens_node, htrails.tokens_insertAfter,
    if_pos (containsNewline_newLine layout level), h.tokens_eq]
  simp [textOf_newLine, Tree.text]

end Append

/-- Appending an expression to an array of a parsed manifest inserts a line behind the last element
and what trails it, and a comma if that element lacks one. A comma that was put behind the last
element is not put there again. -/
theorem append_inserts {source : String} {root expr : Tree} {array : Site}
    (hparse : parse source = .ok root) (harray : Found root .arrayExpr array)
    (hexpr : expr.isExpr = true) (layout : Layout) (level : Nat) :
    ∃ new spaced,
      append layout array expr level = ⟨array, new⟩ ∧
      Edit.applyTo? ⟨array, new⟩ root = some (root.set array.path new) ∧
      new.elementExprs = array.tree.elementExprs ++ [expr] ∧
      (∃ before, new.elements = before ++ [.node .arrayElement [expr]] ∧
        (∀ e ∈ before, hasSeparator e = true) ∧
        hasSeparator (.node .arrayElement [expr]) = false) ∧
      (∃ left x inline more,
        array.tree.children = left ++ x :: (leaves inline ++ more) ∧
        Anchors left x (leaves inline ++ more) ∧
        (∀ u ∈ inline, u.isTrivia = true ∧ u.kind ≠ .newline) ∧
        (∃ u rest, more = .token u :: rest ∧ (u.kind = .newline ∨ u.kind = .rBracket)) ∧
        ∃ p m s, p = textOf (Tree.tokensList (left ++ [x])) ∧ m = textOf inline ∧
          array.tree.text = p ++ m ++ s ∧
          new.text = p ++ textOf (lastComma array.tree) ++ m ++
            (layout.lineEnding.text ++ layout.indent.render level ++ expr.text) ++ s) ∧
      separate array = ⟨array, spaced⟩ ∧
      Edit.applyTo? ⟨array, spaced⟩ root = some (root.set array.path spaced) ∧
      Found (root.set array.path spaced) .arrayExpr ⟨array.path, spaced⟩ ∧
      (separate ⟨array.path, spaced⟩).isNoop = true := by
  obtain ⟨budget, hliteral⟩ := arrayLiteral_of_found (faithful_of_parse hparse) harray
  have hshaped := harray.shaped (rooted_of_parse hparse) (by decide)
  obtain ⟨children, htree⟩ : ∃ children, array.tree = .node .arrayExpr children :=
    ⟨_, Tree.eq_node_of_isNode harray.isNode⟩
  rw [htree] at hliteral hshaped
  obtain ⟨left, x, behind, close, rfl, hbehind, hclose, hanchors⟩ := exists_anchors hliteral
  obtain ⟨inline, more, hmore, htrails⟩ := exists_trails (leaves behind ++ [.token close])
  have hcloses : close.isTrivia = false := by rw [Token.isTrivia, hclose]; rfl
  obtain ⟨u, rest, hrest, hu⟩ := htrails.more_eq hbehind hcloses hmore
  rw [hmore] at htree hshaped hanchors
  refine ⟨_, .node .arrayExpr (separated array.tree.children),
    append_eq layout level hanchors htree, applyTo?_node _ harray.isNode, ?_,
    ⟨_, elements_insertAfter _ hanchors, hanchors.hasSeparator_eq hshaped, ?_⟩, ?_, rfl,
    applyTo?_node _ harray.isNode, ⟨Tree.get?_set harray.get? _, rfl⟩, ?_⟩
  · rw [elementExprs_insertAfter _ _ _ _ _ hexpr, hanchors.elementExprs_eq, htree,
      elementExprs_eq_nil hanchors.right_eq]
  · cases expr with
    | token t => cases hexpr
    | node kind children => rfl
  · refine ⟨left, x, inline, more, by rw [htree]; rfl, hanchors, fun v hv => ?_,
      ⟨u, rest, hrest, hu.imp_right fun heq => by rw [heq, hclose]⟩, _, _,
      textOf (Tree.tokensList more), rfl, rfl, ?_, ?_⟩
    · obtain ⟨htrivia, hline⟩ := Bool.and_eq_true_iff.1 (htrails.inline v hv)
      exact ⟨htrivia, bne_iff_ne.1 hline⟩
    · rw [Tree.text, htree]
      simp
    · rw [text_insertAfter layout level hanchors htrails, htree]
  · rw [Edit.isNoop, beq_iff_eq]
    exact congrArg _ (separated_separated _).symm

/-- Behind an element without a comma that a comment trails. -/
theorem append_inserts_behind_comment :
    ∃ root array expr new, parse "let p = [1 // one\n]" = .ok root ∧
      Found root .arrayExpr array ∧ Snippet.expression ['x'] = .ok expr ∧
      append ⟨.spaces 2, .lf⟩ array expr 1 = ⟨array, new⟩ ∧
      new.text = "[1, // one\n  x\n]".toList ∧
      new.elementExprs = array.tree.elementExprs ++ [expr] := by
  have hrun : ((parse "let p = [1 // one\n]").toOption.bind fun root =>
      (root.get? [0, 6]).bind fun array => (Snippet.expression ['x']).toOption.map fun expr =>
        array.isNode .arrayExpr && expr.isExpr &&
          (append ⟨.spaces 2, .lf⟩ ⟨[0, 6], array⟩ expr 1).replacement.text ==
            "[1, // one\n  x\n]".toList) = some true := by
    decide +kernel
  simp only [Option.bind_eq_some_iff, Option.map_eq_some_iff, Bool.and_eq_true, beq_iff_eq] at hrun
  obtain ⟨root, hroot, array, hget, expr, hsnippet, ⟨hnode, hexpr⟩, htext⟩ := hrun
  have hparse := RoundTrip.eq_ok_of_toOption hroot
  have harray : Found root .arrayExpr ⟨[0, 6], array⟩ := ⟨hget, hnode⟩
  obtain ⟨new, _, hnew, _, hexprs, _⟩ := append_inserts hparse harray hexpr ⟨.spaces 2, .lf⟩ 1
  rw [hnew] at htext
  exact ⟨root, ⟨[0, 6], array⟩, expr, new, hparse, harray, RoundTrip.eq_ok_of_toOption hsnippet,
    hnew, htext, hexprs⟩

end PackageManifest.Proofs.Insertions
