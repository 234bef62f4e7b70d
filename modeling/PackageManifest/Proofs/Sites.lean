import PackageManifest.Proofs.Trees
import PackageManifest.Source.View

/-!
# Places in a tree

What is looked up by its kind is a first child with some property, so looking it up splits the
children of its parent. A `Spot` is the surroundings of a place as a function of what stands there.
-/

namespace PackageManifest.Source

theorem Tree.arguments_eq (t : Tree) :
    t.arguments = (t.argumentList?.map Tree.listArguments).getD [] := by
  unfold Tree.arguments
  cases t.argumentList? <;> rfl

namespace Site

/-- Looking for a child counts from the position of the first one. -/
theorem find?_positions {path : List Nat} {p : Tree → Bool} {c : Site} (n : Nat) (ts : List Tree) :
    (((ts.zipIdx n).map fun x => (⟨path ++ [x.2], x.1⟩ : Site)).find? fun d => p d.tree) =
        some c ↔
      ∃ left right, ts = left ++ c.tree :: right ∧ (∀ t ∈ left, p t = false) ∧
        p c.tree = true ∧ c.path = path ++ [n + left.length] := by
  induction ts generalizing n with
  | nil => simp
  | cons t ts ih =>
    rw [List.zipIdx_cons, List.map_cons, List.find?_cons]
    by_cases ht : p t = true
    · simp only [ht, Option.some.injEq]
      constructor
      · rintro rfl
        exact ⟨[], ts, rfl, by simp, ht, by simp⟩
      · rintro ⟨left, right, hsplit, hleft, hc, hpath⟩
        cases left with
        | nil =>
          obtain ⟨rfl, rfl⟩ := List.cons.inj hsplit
          rw [List.length_nil, Nat.add_zero] at hpath
          rw [← hpath]
        | cons u left =>
          obtain ⟨rfl, _⟩ := List.cons.inj hsplit
          rw [hleft t (List.mem_cons_self ..)] at ht
          cases ht
    · rw [Bool.not_eq_true] at ht
      simp only [ht]
      rw [ih (n + 1)]
      constructor
      · rintro ⟨left, right, rfl, hleft, hc, hpath⟩
        refine ⟨t :: left, right, rfl, ?_, hc, ?_⟩
        · simpa [ht] using hleft
        · rw [hpath, List.length_cons]
          congr 2
          omega
      · rintro ⟨left, right, hsplit, hleft, hc, hpath⟩
        cases left with
        | nil =>
          obtain ⟨rfl, _⟩ := List.cons.inj hsplit
          rw [ht] at hc
          cases hc
        | cons u left =>
          obtain ⟨rfl, rfl⟩ := List.cons.inj hsplit
          refine ⟨left, right, rfl, fun t ht => hleft t (List.mem_cons_of_mem _ ht), hc, ?_⟩
          rw [hpath, List.length_cons]
          congr 2
          omega

theorem child?_eq_some {s c : Site} {p : Tree → Bool} :
    s.child? p = some c ↔
      ∃ left right, s.tree.children = left ++ c.tree :: right ∧ (∀ t ∈ left, p t = false) ∧
        p c.tree = true ∧ c.path = s.path ++ [left.length] := by
  have hfirst := @find?_positions s.path p c 0 s.tree.children
  rw [child?, children]
  simpa only [Nat.zero_add] using hfirst

theorem child?_split {s c : Site} {p : Tree → Bool} {kind : NodeKind}
    (hs : s.tree.isNode kind = true) (h : s.child? p = some c) :
    ∃ left right, s.tree = .node kind (left ++ c.tree :: right) ∧ (∀ t ∈ left, p t = false) ∧
      p c.tree = true ∧ c.path = s.path ++ [left.length] := by
  obtain ⟨left, right, hsplit, hrest⟩ := child?_eq_some.1 h
  exact ⟨left, right, by rw [← hsplit]; exact Tree.eq_node_of_isNode hs, hrest⟩

theorem child?_node {s c : Site} {p : Tree → Bool} (h : s.child? p = some c) :
    ∃ kind left right, s.tree = .node kind (left ++ c.tree :: right) ∧ (∀ t ∈ left, p t = false) ∧
      p c.tree = true ∧ c.path = s.path ++ [left.length] := by
  obtain ⟨left, right, hsplit, hrest⟩ := child?_eq_some.1 h
  cases hs : s.tree with
  | token u =>
    rw [hs] at hsplit
    cases left <;> cases hsplit
  | node kind children =>
    rw [hs, Tree.children_node] at hsplit
    exact ⟨kind, left, right, by rw [hsplit], hrest⟩

theorem child?_eq_none {s : Site} {p : Tree → Bool} :
    s.child? p = none ↔ ∀ t ∈ s.tree.children, p t = false := by
  rw [child?, List.find?_eq_none, children]
  constructor
  · intro h t ht
    obtain ⟨i, hi, rfl⟩ := List.mem_iff_getElem.1 ht
    have hfound := h _ (List.mem_map.2 ⟨(s.tree.children[i], i),
      List.mem_zipIdx_iff_getElem?.2 (by simp [hi]), rfl⟩)
    simpa using hfound
  · rintro h c hc
    obtain ⟨⟨t, i⟩, hmem, rfl⟩ := List.mem_map.1 hc
    simpa using h t (List.fst_mem_of_mem_zipIdx hmem)

theorem child?_map (s : Site) (p : Tree → Bool) :
    (s.child? p).map tree = s.tree.children.find? p := by
  cases h : s.child? p with
  | none =>
    symm
    rw [Option.map_none, List.find?_eq_none]
    simpa using child?_eq_none.1 h
  | some c =>
    obtain ⟨left, right, hsplit, hleft, hc, _⟩ := child?_eq_some.1 h
    symm
    rw [Option.map_some, List.find?_eq_some_iff_append]
    exact ⟨hc, left, right, hsplit, by simpa using hleft⟩

theorem argument?_eq (s : Site) (label : List Char) :
    s.argument? label = s.argumentList?.bind fun list =>
      list.child? fun t => t.isNode .argument && t.hasLabel label := by
  rw [argument?, arguments]
  cases s.argumentList? with
  | none => rfl
  | some list =>
    simp only [Option.bind_some, List.find?_filter, child?]
    congr 1
    funext c
    simp

theorem argumentList?_map (s : Site) : s.argumentList?.map tree = s.tree.argumentList? :=
  s.child?_map (Tree.isNode .argumentList)

theorem arguments_of_argumentList? {s list : Site} (h : s.argumentList? = some list) :
    s.tree.arguments = list.tree.listArguments := by
  rw [Tree.arguments_eq, ← argumentList?_map, h]
  rfl

theorem exists_argumentList? {s : Site} (h : s.tree.arguments ≠ []) :
    ∃ list, s.argumentList? = some list := by
  cases hlist : s.argumentList? with
  | some list => exact ⟨list, rfl⟩
  | none =>
    rw [Tree.arguments_eq, ← argumentList?_map, hlist] at h
    exact absurd rfl h

theorem argument?_map (s : Site) (label : List Char) :
    (s.argument? label).map tree = s.tree.arguments.find? (Tree.hasLabel label) := by
  rw [argument?_eq, Tree.arguments_eq, ← argumentList?_map]
  cases s.argumentList? with
  | none => rfl
  | some list =>
    rw [Option.bind_some, child?_map]
    simp only [Option.map_some, Option.getD_some, Tree.listArguments, List.find?_filter]
    congr 1
    funext t
    simp

theorem argumentValue?_map (s : Site) (label : List Char) :
    (s.argumentValue? label).map tree = s.tree.argumentValue? label := by
  rw [argumentValue?, Tree.argumentValue?, ← argument?_map]
  cases s.argument? label with
  | none => rfl
  | some a => exact a.child?_map Tree.isExpr

theorem head?_elements (s : Site) : s.elements.head? = s.child? (Tree.isNode .arrayElement) := by
  rw [elements, List.head?_filter]
  rfl

end Site

/-! ## Surroundings -/

/-- `around t` is the tree around the place at `path` with `t` standing there. -/
def Spot (around : Tree → Tree) (path : List Nat) : Prop :=
  ∀ old more new, (around old).set (path ++ more) new = around (old.set more new)

namespace Spot

variable {around : Tree → Tree} {path : List Nat}

theorem here : Spot id [] := by
  intro old more new
  rfl

theorem set (h : Spot around path) (old new : Tree) : (around old).set path new = around new := by
  have := h old [] new
  rw [List.append_nil] at this
  rw [this]
  cases old <;> rfl

theorem child (h : Spot around path) (kind : NodeKind) (left right : List Tree) :
    Spot (fun t => around (.node kind (left ++ t :: right))) (path ++ [left.length]) := by
  intro old more new
  rw [List.append_assoc, h, List.cons_append, List.nil_append, Tree.set,
    List.modify_eq_take_cons_drop (by simp)]
  simp

theorem inside {build : Tree → Tree} {more : List Nat} (h : Spot around path)
    (h' : Spot build more) : Spot (fun t => around (build t)) (path ++ more) := by
  intro old last new
  rw [List.append_assoc, h, h']

end Spot

/-! ## The tokens around a place -/

theorem Tree.get?_append (t : Tree) (p q : List Nat) :
    t.get? (p ++ q) = (t.get? p).bind fun s => s.get? q := by
  induction p generalizing t with
  | nil => simp [Tree.get?]
  | cons i p ih =>
    cases t with
    | token u => rfl
    | node k cs =>
      rw [List.cons_append, Tree.get?, Tree.get?]
      cases cs[i]? with
      | none => rfl
      | some c => exact ih c

theorem Site.get?_child? {root : Tree} {s c : Site} {p : Tree → Bool}
    (h : root.get? s.path = some s.tree) (hc : s.child? p = some c) :
    root.get? c.path = some c.tree := by
  obtain ⟨kind, left, right, htree, _, _, hpath⟩ := child?_node hc
  rw [hpath, Tree.get?_append, h, Option.bind_some, htree]
  simp [Tree.get?]

theorem modify_at {children : List Tree} {i : Nat} {c : Tree} (hc : children[i]? = some c) :
    ∃ left right, children = left ++ c :: right ∧
      ∀ f : Tree → Tree, children.modify i f = left ++ f c :: right := by
  obtain ⟨hi, rfl⟩ := List.getElem?_eq_some_iff.1 hc
  refine ⟨children.take i, children.drop (i + 1), ?_, fun f => List.modify_eq_take_cons_drop hi⟩
  rw [← List.drop_eq_getElem_cons hi, List.take_append_drop]

theorem Tree.set_append {t s : Tree} {p q : List Nat} (h : t.get? p = some s) (new : Tree) :
    t.set (p ++ q) new = t.set p (s.set q new) := by
  induction p generalizing t with
  | nil =>
    obtain rfl : t = s := Option.some.inj h
    cases t <;> rfl
  | cons i p ih =>
    cases t with
    | token u => cases h
    | node k cs =>
      obtain ⟨c, hc, hinner⟩ := Option.bind_eq_some_iff.1 h
      obtain ⟨left, right, rfl, hmodify⟩ := modify_at hc
      rw [List.cons_append, Tree.set, Tree.set, hmodify, hmodify, ih hinner]

theorem Tree.get?_set {t s : Tree} {p : List Nat} (h : t.get? p = some s) (new : Tree) :
    (t.set p new).get? p = some new := by
  induction p generalizing t with
  | nil => cases new <;> rfl
  | cons i p ih =>
    cases t with
    | token u => cases h
    | node k cs =>
      obtain ⟨c, hc, hinner⟩ := Option.bind_eq_some_iff.1 h
      rw [Tree.set, Tree.get?, List.getElem?_modify_eq, hc]
      exact ih hinner

theorem Tree.set_set {t s : Tree} {p : List Nat} (h : t.get? p = some s) (new : Tree) :
    (t.set p new).set p s = t := by
  induction p generalizing t with
  | nil =>
    obtain rfl : t = s := Option.some.inj h
    cases new <;> rfl
  | cons i p ih =>
    cases t with
    | token u => cases h
    | node k cs =>
      obtain ⟨c, hc, hinner⟩ := Option.bind_eq_some_iff.1 h
      obtain ⟨left, right, rfl, hmodify⟩ := modify_at hc
      rw [Tree.set, Tree.set, List.modify_modify_eq, hmodify, Function.comp_apply, ih hinner]

/-- What replaces a tree at the end of a path has the same tokens on both sides. -/
theorem Tree.tokens_set {root old : Tree} {path : List Nat} (h : root.get? path = some old) :
    ∃ after, root.tokens = root.tokensBefore path ++ old.tokens ++ after ∧
      ∀ new, (root.set path new).tokens = root.tokensBefore path ++ new.tokens ++ after := by
  induction path generalizing root with
  | nil =>
    obtain rfl : root = old := Option.some.inj h
    exact ⟨[], by simp [Tree.tokensBefore], by simp [Tree.set, Tree.tokensBefore]⟩
  | cons i path ih =>
    cases root with
    | token u => cases h
    | node k cs =>
      obtain ⟨c, hc, h⟩ := Option.bind_eq_some_iff.1 h
      obtain ⟨after, htokens, hset⟩ := ih h
      obtain ⟨hi, rfl⟩ := List.getElem?_eq_some_iff.1 hc
      have hsplit : cs = cs.take i ++ cs[i] :: cs.drop (i + 1) := by
        rw [← List.drop_eq_getElem_cons hi, List.take_append_drop]
      refine ⟨after ++ Tree.tokensList (cs.drop (i + 1)), ?_, fun new => ?_⟩
      · have hall := congrArg Tree.tokensList hsplit
        rw [Tree.tokensList_append, Tree.tokensList_cons, htokens] at hall
        rw [Tree.tokens_node, hall]
        simp [Tree.tokensBefore, hi]
      · rw [Tree.set, List.modify_eq_take_cons_drop hi]
        simp [Tree.tokensBefore, hi, hset]

end PackageManifest.Source
