import PackageManifest.Source.Cursor

/-!
# Kinds of trees

What the tests on the kind of a tree say of a token and of a node.
-/

namespace PackageManifest.Source.Tree

@[simp] theorem isNode_node (k l : NodeKind) (cs : List Tree) :
    (node k cs).isNode l = (k == l) := by
  rw [Bool.eq_iff_iff]
  simp [isNode, kind]

@[simp] theorem isNode_token (t : Token) (k : NodeKind) : (token t).isNode k = false := by
  simp [isNode, kind]

@[simp] theorem isToken_token (t : Token) (k : TokenKind) :
    (token t).isToken k = (t.kind == k) := by
  rw [Bool.eq_iff_iff]
  simp [isToken, kind]

@[simp] theorem isToken_node (k : NodeKind) (cs : List Tree) (l : TokenKind) :
    (node k cs).isToken l = false := by
  simp [isToken, kind]

@[simp] theorem isExpr_node (k : NodeKind) (cs : List Tree) :
    (node k cs).isExpr = k.isExpr := rfl

@[simp] theorem isExpr_token (t : Token) : (token t).isExpr = false := rfl

@[simp] theorem isTrivia_token (t : Token) : (token t).isTrivia = t.isTrivia := rfl

@[simp] theorem isTrivia_node (k : NodeKind) (cs : List Tree) :
    (node k cs).isTrivia = false := rfl

@[simp] theorem isComment_token (t : Token) : (token t).isComment = t.kind.isComment := rfl

@[simp] theorem isComment_node (k : NodeKind) (cs : List Tree) :
    (node k cs).isComment = false := rfl

@[simp] theorem token?_token (t : Token) : (token t).token? = some t := rfl

@[simp] theorem token?_node (k : NodeKind) (cs : List Tree) : (node k cs).token? = none := rfl

@[simp] theorem children_node (k : NodeKind) (cs : List Tree) : (node k cs).children = cs := rfl

theorem eq_node_of_isNode {t : Tree} {k : NodeKind} (h : t.isNode k = true) :
    t = node k t.children := by
  cases t with
  | token t => simp at h
  | node l cs => simp_all

theorem kind_eq_of_isNode {t u : Tree} {k : NodeKind} (ht : t.isNode k = true)
    (hu : u.isNode k = true) : t.kind = u.kind := by
  rw [isNode, beq_iff_eq] at ht hu
  rw [ht, hu]

theorem token?_of_isNode {t : Tree} {k : NodeKind} (h : t.isNode k = true) : t.token? = none := by
  rw [eq_node_of_isNode h, token?_node]

theorem token?_of_isExpr {t : Tree} (h : t.isExpr = true) : t.token? = none := by
  cases t with
  | token t => cases h
  | node k cs => rfl

@[simp] theorem filterMap_token?_leaves (ts : List Token) :
    (leaves ts).filterMap token? = ts := by
  rw [leaves, List.filterMap_map]
  exact List.filterMap_some

theorem eq_token_of_mem_leaves {ts : List Token} {t : Tree} (h : t ∈ leaves ts) :
    ∃ u, u ∈ ts ∧ t = token u := by
  obtain ⟨u, hu, rfl⟩ := List.mem_map.1 h
  exact ⟨u, hu, rfl⟩

@[simp] theorem filter_isNode_leaves (ts : List Token) (k : NodeKind) :
    (leaves ts).filter (isNode k) = [] := by
  rw [List.filter_eq_nil_iff]
  intro t ht
  obtain ⟨u, _, rfl⟩ := eq_token_of_mem_leaves ht
  simp

@[simp] theorem find?_isExpr_leaves (ts : List Token) : (leaves ts).find? isExpr = none := by
  rw [List.find?_eq_none]
  intro t ht
  obtain ⟨u, _, rfl⟩ := eq_token_of_mem_leaves ht
  simp

theorem leaves_append_eq {ts : List Token} {first v : Tree} {more left right : List Tree}
    (hv : v.token? = none) (h : leaves ts ++ first :: more = left ++ v :: right) :
    (left = leaves ts ∧ first = v ∧ more = right) ∨
      ∃ inner, left = leaves ts ++ first :: inner ∧ more = inner ++ v :: right := by
  induction ts generalizing left with
  | nil =>
    cases left with
    | nil =>
      obtain ⟨hfirst, hmore⟩ := List.cons.inj h
      exact .inl ⟨rfl, hfirst, hmore⟩
    | cons t left =>
      obtain ⟨hfirst, hmore⟩ := List.cons.inj h
      exact .inr ⟨left, by rw [← hfirst]; rfl, hmore⟩
  | cons u ts ih =>
    cases left with
    | nil =>
      obtain ⟨rfl, _⟩ := List.cons.inj h
      cases hv
    | cons t left =>
      obtain ⟨hu, hmore⟩ := List.cons.inj h
      rcases ih hmore with ⟨rfl, hrest⟩ | ⟨inner, rfl, hrest⟩
      · exact .inl ⟨by rw [← hu]; rfl, hrest⟩
      · exact .inr ⟨inner, by rw [← hu]; rfl, hrest⟩

theorem leaves_concat_eq {ts : List Token} {last v : Tree} {left right : List Tree}
    (hv : v.token? = none) (h : leaves ts ++ [last] = left ++ v :: right) :
    left = leaves ts ∧ last = v ∧ right = [] := by
  rcases leaves_append_eq hv h with ⟨hleft, hlast, hright⟩ | ⟨inner, _, hmore⟩
  · exact ⟨hleft, hlast, hright.symm⟩
  · cases inner <;> cases hmore

theorem leaves_ne {ts : List Token} {v : Tree} {left right : List Tree} (hv : v.token? = none) :
    leaves ts ≠ left ++ v :: right := by
  intro h
  have hmem : v ∈ leaves ts := by
    rw [h]
    simp
  obtain ⟨u, _, rfl⟩ := eq_token_of_mem_leaves hmem
  cases hv

end PackageManifest.Source.Tree
