import PackageManifest.Proofs.Grammar.Soundness
import PackageManifest.Source.View

/-!
# Replacing parts of an expression

What stands inside a call, a list or an element can be replaced by something of the same rule. Each
layer has a lemma that names the rule of a child and puts another child of that rule in its place.
-/

namespace PackageManifest.Proofs.Grammar

open Source

section Rules

variable {P : Tree → Prop}

/-! ## Expressions and their kinds -/

theorem Primary.isExpr {t : Tree} (h : Primary P t) : t.isExpr = true := by
  cases h with
  | leaf hkind =>
    rename_i u kind
    cases hu : u.kind <;> rw [hu] at hkind <;> simp [leafKind?] at hkind <;> subst hkind <;> rfl
  | member => rfl
  | array harray =>
    rw [Tree.eq_node_of_isNode harray.isNode]
    rfl
  | tuple => rfl
  | block hblock =>
    rw [Tree.eq_node_of_isNode hblock.isNode]
    rfl
  | prefixed => rfl

theorem Chain.isExpr {t : Tree} (h : Chain P t) : t.isExpr = true := by
  cases h with
  | primary hprimary => exact hprimary.isExpr
  | apply _ _ happ => cases happ <;> rfl

theorem Sequence.isExpr {budget : Nat} {t : Tree} (h : Sequence (Operand budget) t) :
    t.isExpr = true := by
  cases h with
  | single ht =>
    cases budget with
    | zero => exact ht.elim
    | succ budget => exact Chain.isExpr ht
  | joined => rfl

/-- A sequence is a node of its own, so other expressions are operands. -/
theorem Sequence.operand {t : Tree} {kind : NodeKind} (h : Sequence P t)
    (ht : t.isNode kind = true) (hkind : kind ≠ .sequenceExpr) : P t := by
  cases h with
  | single ht => exact ht
  | joined =>
    rw [Tree.isNode_node, beq_iff_eq] at ht
    exact absurd ht.symm hkind

theorem Chain.arrayLiteral {t : Tree} (h : Chain P t) (ht : t.isNode .arrayExpr = true) :
    ArrayLiteral P t := by
  cases h with
  | primary hprimary =>
    cases hprimary with
    | leaf hkind =>
      rename_i u kind
      cases hu : u.kind <;> rw [hu] at hkind <;> simp [leafKind?] at hkind <;> subst hkind <;>
        cases ht
    | member => cases ht
    | array harray => exact harray
    | tuple => cases ht
    | block hblock =>
      rw [Tree.eq_node_of_isNode hblock.isNode] at ht
      cases ht
    | prefixed => cases ht
  | apply _ _ happ => cases happ <;> cases ht

theorem Sequence.arrayLiteral {budget : Nat} {t : Tree} (h : Sequence (Operand (budget + 1)) t)
    (ht : t.isNode .arrayExpr = true) : ArrayLiteral (Operand budget) t :=
  Chain.arrayLiteral (h.operand ht (by decide)) ht

theorem Delimited.sequence {budget : Nat} {t : Tree} (h : ArrayLiteral (Operand budget) t) :
    Sequence (Operand (budget + 1)) t :=
  .single (.primary (.array h))

/-! ## The arguments of a call -/

theorem Chain.arguments {left right : List Tree} {list : Tree}
    (h : Chain P (.node .callExpr (left ++ list :: right)))
    (hlist : list.isNode .argumentList = true) :
    Arguments P .lParen .rParen list ∧
      ∀ new, Arguments P .lParen .rParen new →
        Chain P (.node .callExpr (left ++ new :: right)) := by
  have hnode := Tree.token?_of_isNode hlist
  -- The first child of a call is an expression, so the list stands behind it.
  have behind {base : Tree} {children : List Tree} (hbase : base.isExpr = true)
      (heq : base :: children = left ++ list :: right) :
      ∃ inner, left = base :: inner ∧ children = inner ++ list :: right := by
    cases left with
    | nil =>
      obtain ⟨rfl, _⟩ := List.cons.inj heq
      rw [Tree.eq_node_of_isNode hlist] at hbase
      cases hbase
    | cons t inner =>
      obtain ⟨rfl, hinner⟩ := List.cons.inj heq
      exact ⟨inner, rfl, hinner⟩
  have no_block {block : Tree} (hblock : Block block) : block ≠ list := by
    rintro rfl
    rw [Tree.eq_node_of_isNode hblock.isNode] at hlist
    cases hlist
  generalize hchildren : left ++ list :: right = children at h
  cases h with
  | primary hprimary => cases hprimary.isNode_callExpr
  | apply hbase hsign happ =>
    rename_i base
    cases happ with
    | call hbefore hline hargs =>
      obtain ⟨inner, rfl, heq⟩ := behind hbase.isExpr hchildren.symm
      rcases Tree.leaves_append_eq hnode heq with ⟨rfl, rfl, rfl⟩ | ⟨more, _, hmore⟩
      · exact ⟨hargs, fun new hnew => .apply hbase hsign (.call hbefore hline hnew)⟩
      · cases more <;> cases hmore
    | callWithBlock hbefore hline hargs hbetween hsame hblock =>
      simp only [List.cons_append, List.append_assoc] at hchildren
      obtain ⟨inner, rfl, heq⟩ := behind hbase.isExpr hchildren.symm
      rcases Tree.leaves_append_eq hnode heq with ⟨rfl, rfl, rfl⟩ | ⟨more, _, hmore⟩
      · refine ⟨hargs, fun new hnew => ?_⟩
        refine .apply hbase hsign ?_
        have happ : Application P base _ :=
          .callWithBlock hbefore hline hnew hbetween hsame hblock
        simpa only [List.cons_append, List.append_assoc] using happ
      · rcases Tree.leaves_append_eq hnode hmore with ⟨_, hlist', _⟩ | ⟨more, _, hmore⟩
        · exact absurd hlist' (no_block hblock)
        · cases more <;> cases hmore
    | block htakes hbefore hline hblock =>
      obtain ⟨inner, rfl, heq⟩ := behind hbase.isExpr hchildren.symm
      rcases Tree.leaves_append_eq hnode heq with ⟨_, hlist', _⟩ | ⟨more, _, hmore⟩
      · exact absurd hlist' (no_block hblock)
      · cases more <;> cases hmore

/-! ## The elements of a list -/

section Lists

variable {kind : NodeKind} {close : TokenKind}

theorem Element.isNode {separated : Bool} {e : Tree} (h : Element P kind separated e) :
    e.isNode kind = true := by
  cases h <;> simp

theorem Elements.trivia {before : List Token} {more : List Tree} (hbefore : AllTrivia before)
    (h : Elements P kind close more) : Elements P kind close (leaves before ++ more) := by
  have leaves_append (inner : List Token) (rest : List Tree) :
      leaves before ++ (leaves inner ++ rest) = leaves (before ++ inner) ++ rest := by
    simp [leaves]
  cases h with
  | close hinner ht =>
    rw [leaves_append]
    exact .close (hbefore.append hinner) ht
  | last hinner he hbehind ht =>
    rw [List.append_assoc, leaves_append, ← List.append_assoc]
    exact .last (hbefore.append hinner) he hbehind ht
  | next hinner he hmore =>
    rw [leaves_append]
    exact .next (hbefore.append hinner) he hmore

theorem Elements.of_trivia {before : List Token} {more : List Tree}
    (hclose : close.isTrivia = false) (hbefore : AllTrivia before)
    (h : Elements P kind close (leaves before ++ more)) : Elements P kind close more := by
  have step {u : Token} {ts : List Tree} (hu : u.isTrivia = true)
      (h : Elements P kind close (.token u :: ts)) : Elements P kind close ts := by
    generalize hts : Tree.token u :: ts = trees at h
    cases h with
    | close hinner ht =>
      rename_i inner t
      cases inner with
      | nil =>
        obtain ⟨hut, _⟩ := List.cons.inj hts
        rw [Tree.token.inj hut, Token.isTrivia, ht, hclose] at hu
        cases hu
      | cons v inner =>
        obtain ⟨_, rfl⟩ := List.cons.inj hts
        exact .close hinner.tail ht
    | last hinner he hbehind ht =>
      rename_i inner behind e t
      cases inner with
      | nil =>
        obtain ⟨hut, _⟩ := List.cons.inj hts
        rw [← hut] at he
        cases he.isNode
      | cons v inner =>
        obtain ⟨_, rfl⟩ := List.cons.inj hts
        exact .last hinner.tail he hbehind ht
    | next hinner he hmore =>
      rename_i inner e more
      cases inner with
      | nil =>
        obtain ⟨hut, _⟩ := List.cons.inj hts
        rw [← hut] at he
        cases he.isNode
      | cons v inner =>
        obtain ⟨_, rfl⟩ := List.cons.inj hts
        exact .next hinner.tail he hmore
  induction before with
  | nil => exact h
  | cons u before ih =>
    exact ih hbefore.tail (step (hbefore u (List.mem_cons_self ..)) h)

/-- An element splits its list: any list may stand behind what is before it, and what is behind it
depends on whether a comma ends it. -/
theorem Elements.split {left right : List Tree} {e : Tree}
    (h : Elements P kind close (left ++ e :: right)) (he : e.isNode kind = true) :
    (∀ more, Elements P kind close more → Elements P kind close (left ++ more)) ∧
      ((Element P kind false e ∧ ∃ behind t, AllTrivia behind ∧ t.kind = close ∧
          right = leaves behind ++ [.token t]) ∨
        (Element P kind true e ∧ Elements P kind close right)) := by
  have hnode := Tree.token?_of_isNode he
  generalize htrees : left ++ e :: right = trees at h
  induction h generalizing left with
  | close hbefore ht =>
    rcases Tree.leaves_append_eq hnode htrees.symm with ⟨_, rfl, _⟩ | ⟨more, _, hmore⟩
    · cases he
    · cases more <;> cases hmore
  | last hbefore hfirst hbehind ht =>
    rw [List.append_assoc] at htrees
    rcases Tree.leaves_append_eq hnode htrees.symm with ⟨rfl, rfl, rfl⟩ | ⟨more, _, hmore⟩
    · exact ⟨fun more hmore => hmore.trivia hbefore, .inl ⟨hfirst, _, _, hbehind, ht, rfl⟩⟩
    · rcases Tree.leaves_append_eq hnode hmore with ⟨_, rfl, _⟩ | ⟨more, _, hmore⟩
      · cases he
      · cases more <;> cases hmore
  | next hbefore hfirst hrest ih =>
    rcases Tree.leaves_append_eq hnode htrees.symm with ⟨rfl, rfl, rfl⟩ | ⟨inner, rfl, rfl⟩
    · exact ⟨fun more hmore => hmore.trivia hbefore, .inr ⟨hfirst, hrest⟩⟩
    · obtain ⟨hleft, hright⟩ := ih rfl
      refine ⟨fun more hmore => ?_, hright⟩
      rw [List.append_assoc]
      exact .next hbefore hfirst (hleft more hmore)

theorem Elements.eq_of_all_leaves {trees : List Tree} (h : Elements P kind close trees)
    (hnone : trees.any (Tree.isNode kind) = false) :
    ∃ before t, AllTrivia before ∧ t.kind = close ∧ trees = leaves before ++ [.token t] := by
  cases h with
  | close hbefore ht => exact ⟨_, _, hbefore, ht, rfl⟩
  | last _ he => simp [he.isNode] at hnone
  | next _ he => simp [he.isNode] at hnone

theorem Delimited.split {whole : NodeKind} {opening : TokenKind} {left right : List Tree} {e : Tree}
    (h : Delimited P whole kind opening close (.node whole (left ++ e :: right)))
    (he : e.isNode kind = true) :
    (∀ more, Elements P kind close more →
        Delimited P whole kind opening close (.node whole (left ++ more))) ∧
      ((Element P kind false e ∧ ∃ behind t, AllTrivia behind ∧ t.kind = close ∧
          right = leaves behind ++ [.token t]) ∨
        (Element P kind true e ∧ Elements P kind close right)) := by
  generalize htrees : left ++ e :: right = trees at h
  cases h with
  | intro ht helements =>
    cases left with
    | nil =>
      obtain ⟨rfl, _⟩ := List.cons.inj htrees
      cases he
    | cons u left =>
      obtain ⟨rfl, rfl⟩ := List.cons.inj htrees
      obtain ⟨hleft, hcases⟩ := helements.split he
      exact ⟨fun more hmore => .intro ht (hleft more hmore), hcases⟩

/-- A list can be given another element, with a comma if the old one has one. -/
theorem Delimited.item {whole : NodeKind} {opening : TokenKind} {left right : List Tree} {e : Tree}
    (h : Delimited P whole kind opening close (.node whole (left ++ e :: right)))
    (he : e.isNode kind = true) :
    ∃ separated, Element P kind separated e ∧
      ∀ new, Element P kind separated new →
        Delimited P whole kind opening close (.node whole (left ++ new :: right)) := by
  obtain ⟨hleft, ⟨hbare, behind, t, hbehind, ht, rfl⟩ | ⟨hsep, hright⟩⟩ := h.split he
  · exact ⟨false, hbare, fun new hnew => hleft _ (.last allTrivia_nil hnew hbehind ht)⟩
  · exact ⟨true, hsep, fun new hnew => hleft _ (.next allTrivia_nil hnew hright)⟩

theorem Element.around {separated : Bool} {left right : List Tree} {v : Tree}
    (h : Element P kind separated (.node kind (left ++ v :: right))) (hv : v.token? = none) :
    Sequence P v ∧ ∃ label, Label kind label ∧ left = leaves label ∧
      ((separated = false ∧ right = []) ∨
        (separated = true ∧ ∃ before comma, AllTrivia before ∧ comma.kind = .comma ∧
          right = leaves before ++ [.token comma])) := by
  generalize htrees : left ++ v :: right = trees at h
  cases h with
  | bare hlabel hvalue =>
    rcases Tree.leaves_append_eq hv htrees.symm with ⟨rfl, rfl, rfl⟩ | ⟨more, _, hmore⟩
    · exact ⟨hvalue, _, hlabel, rfl, .inl ⟨rfl, rfl⟩⟩
    · cases more <;> cases hmore
  | separated hlabel hvalue hbefore hcomma =>
    rw [List.append_assoc] at htrees
    rcases Tree.leaves_append_eq hv htrees.symm with ⟨rfl, rfl, rfl⟩ | ⟨more, _, hmore⟩
    · exact ⟨hvalue, _, hlabel, rfl, .inr ⟨rfl, _, _, hbefore, hcomma, rfl⟩⟩
    · rcases Tree.leaves_append_eq hv hmore with ⟨_, rfl, _⟩ | ⟨more, _, hmore⟩
      · cases hv
      · cases more <;> cases hmore

theorem Element.value {separated : Bool} {left right : List Tree} {v : Tree}
    (h : Element P kind separated (.node kind (left ++ v :: right))) (hv : v.token? = none)
    (new : Tree) (hnew : Sequence P new) :
    Element P kind separated (.node kind (left ++ new :: right)) := by
  obtain ⟨_, label, hlabel, rfl, ⟨rfl, rfl⟩ | ⟨rfl, before, comma, hbefore, hcomma, rfl⟩⟩ :=
    h.around hv
  · exact .bare hlabel hnew
  · have := Element.separated hlabel hnew hbefore hcomma
    rwa [List.append_assoc] at this

theorem Element.exists_expr? {budget : Nat} {separated : Bool} {e : Tree}
    (h : Element (Operand budget) kind separated e) :
    ∃ v, e.expr? = some v ∧ Sequence (Operand budget) v := by
  cases h with
  | bare _ hvalue =>
    refine ⟨_, ?_, hvalue⟩
    rw [Tree.expr?, Tree.children_node, List.find?_append, Tree.find?_isExpr_leaves,
      Option.none_or, List.find?_cons_of_pos hvalue.isExpr]
  | separated _ hvalue _ _ =>
    refine ⟨_, ?_, hvalue⟩
    rw [Tree.expr?, Tree.children_node, List.append_assoc, List.find?_append,
      Tree.find?_isExpr_leaves, Option.none_or, List.cons_append,
      List.find?_cons_of_pos hvalue.isExpr]

/-- The label of an element is that of the tokens before its value. -/
theorem Element.label?_eq {separated : Bool} {left right : List Tree} {v : Tree}
    (h : Element P kind separated (.node kind (left ++ v :: right))) (hv : v.isExpr = true)
    {new : Tree} (hnew : new.isExpr = true) :
    (Source.Tree.node kind (left ++ new :: right)).label? =
      (Tree.tokensList left).head?.map Token.text := by
  obtain ⟨_, label, hlabel, rfl, hright⟩ := h.around (Tree.token?_of_isExpr hv)
  have htokens : (leaves label ++ new :: right).filterMap Tree.token? =
      label ++ right.filterMap Tree.token? := by
    rw [List.filterMap_append, List.filterMap_cons_none (Tree.token?_of_isExpr hnew),
      Tree.filterMap_token?_leaves]
  rw [Tree.label?, Tree.hasColon, Tree.tokenOf?, Tree.children_node, htokens, tokensList_leaves]
  cases hlabel with
  | none =>
    have hcolon : (right.filterMap Tree.token?).find? (fun u : Token => u.kind == .colon) =
        none := by
      rw [List.find?_eq_none]
      obtain ⟨_, rfl⟩ | ⟨_, before, comma, hbefore, hcomma, rfl⟩ := hright
      · simp
      · intro u hu
        rw [List.filterMap_append, Tree.filterMap_token?_leaves] at hu
        rcases List.mem_append.1 hu with hu | hu
        · have htrivia := hbefore u hu
          intro hkind
          rw [Token.isTrivia, beq_iff_eq.1 hkind] at htrivia
          cases htrivia
        · rw [List.mem_singleton.1 hu]
          simp [hcomma]
    rw [List.nil_append, hcolon]
    rfl
  | some _ hname _ hcolon _ =>
    rw [if_pos, Tree.firstToken?, Tree.tokens_node, Tree.tokensList_append, tokensList_leaves]
    · rfl
    · rw [List.find?_isSome]
      exact ⟨_, by simp, beq_iff_eq.2 hcolon⟩

end Lists

end Rules

end PackageManifest.Proofs.Grammar
