import PackageManifest.Edit.Elements
import PackageManifest.Proofs.Sites

/-!
# The shape of a tree

What editing a tree relies on. A list has delimiters that match, with trivia and elements between
them, of which only the last may lack a comma. An element holds one expression, and a comma only at
its end. No node starts or ends with trivia.

A node has its shape by the kinds of its children, and a list also by which of its elements have a
comma. So a tree keeps its shape when a node in it makes way for another one of the same kind
(`Shaped.set`).
-/

namespace PackageManifest.Proofs.Shapes

open Source PackageManifest.Edit

def itemKind? : NodeKind → Option NodeKind
  | .arrayExpr => some .arrayElement
  | .argumentList => some .argument
  | _ => none

def isItemKind (kind : NodeKind) : Bool := kind == .arrayElement || kind == .argument

def isItem (t : Tree) : Bool := t.isNode .arrayElement || t.isNode .argument

@[simp] theorem isItem_node (kind : NodeKind) (children : List Tree) :
    isItem (.node kind children) = isItemKind kind := by
  rw [isItem, Tree.isNode_node, Tree.isNode_node, isItemKind]

def isTriviaKind (kind : Kind) : Bool := kind.onToken TokenKind.isTrivia

/-! ## The kinds of children -/

/-- Delimiters that match, with trivia and elements between them. -/
def Enclosed (item : NodeKind) (kinds : List Kind) : Prop :=
  ∃ opening close inside, kinds = .token opening :: (inside ++ [.token close]) ∧
    opening.closing? = some close ∧ ∀ k ∈ inside, isTriviaKind k = true ∨ k = .node item

/-- One expression and no comma before the end; in an argument, a colon exactly if it starts with a
label. -/
structure Elemental (kind : NodeKind) (kinds : List Kind) : Prop where
  value : kinds.countP Kind.isExpr = 1
  comma : .token .comma ∉ kinds.dropLast
  label : kind = .argument →
    (.token .colon ∈ kinds ↔ ∃ k, kinds.head? = some k ∧ k.onToken TokenKind.isNameLike = true)

structure Tight (kinds : List Kind) : Prop where
  first : ∃ k, kinds.head? = some k ∧ isTriviaKind k = false
  last : ∃ k, kinds.getLast? = some k ∧ isTriviaKind k = false

def Separated (item : NodeKind) (children : List Tree) : Prop :=
  ∀ e ∈ (children.filter (Tree.isNode item)).dropLast, e.hasComma = true

structure NodeShape (kind : NodeKind) (children : List Tree) : Prop where
  tight : Tight (children.map Tree.kind)
  list : ∀ item, itemKind? kind = some item →
    Enclosed item (children.map Tree.kind) ∧ Separated item children
  element : isItemKind kind = true → Elemental kind (children.map Tree.kind)

inductive Shaped : Tree → Prop
  | token (t : Token) : Shaped (.token t)
  | node {kind : NodeKind} {children : List Tree} :
      NodeShape kind children → (∀ c ∈ children, Shaped c) → Shaped (.node kind children)

/-- A manifest whose declarations and statements all have their shape. -/
def Rooted (root : Tree) : Prop :=
  ∃ children, root = .node .sourceFile children ∧ ∀ c ∈ children, Shaped c

theorem Enclosed.tight {item : NodeKind} {kinds : List Kind} (h : Enclosed item kinds) :
    Tight kinds := by
  obtain ⟨opening, close, inside, rfl, hclose, _⟩ := h
  have hsignificant : opening.isTrivia = false ∧ close.isTrivia = false := by
    cases opening <;> cases hclose <;> exact ⟨rfl, rfl⟩
  refine ⟨⟨.token opening, rfl, hsignificant.1⟩, .token close, ?_, hsignificant.2⟩
  rw [← List.cons_append, List.getLast?_concat]

/-! ## Commas and colons -/

theorem isSome_tokenOf? (t : Tree) (kind : TokenKind) :
    (t.tokenOf? kind).isSome = true ↔ .token kind ∈ t.children.map Tree.kind := by
  rw [Tree.tokenOf?, List.find?_isSome, List.mem_map]
  constructor
  · rintro ⟨u, hu, hkind⟩
    obtain ⟨c, hc, hcu⟩ := List.mem_filterMap.1 hu
    cases c with
    | token v =>
      cases hcu
      exact ⟨_, hc, by rw [Tree.kind, beq_iff_eq.1 hkind]⟩
    | node k cs => cases hcu
  · rintro ⟨c, hc, hkind⟩
    cases c with
    | token v => exact ⟨v, List.mem_filterMap.2 ⟨_, hc, rfl⟩, beq_iff_eq.2 (Kind.token.inj hkind)⟩
    | node k cs => cases hkind

theorem hasComma_iff {t : Tree} :
    t.hasComma = true ↔ .token .comma ∈ t.children.map Tree.kind := isSome_tokenOf? t .comma

theorem hasColon_iff {t : Tree} :
    t.hasColon = true ↔ .token .colon ∈ t.children.map Tree.kind := isSome_tokenOf? t .colon

theorem hasSeparator_iff {t : Tree} :
    hasSeparator t = true ↔ (t.children.map Tree.kind).getLast? = some (.token .comma) := by
  rw [hasSeparator, List.getLast?_map]
  cases t.children.getLast? with
  | none => simp
  | some last => simp [Tree.isToken]

/-- A comma stands at the end of an element or nowhere in it. -/
theorem Elemental.hasComma_eq {kind : NodeKind} {t : Tree}
    (h : Elemental kind (t.children.map Tree.kind)) : t.hasComma = hasSeparator t := by
  rw [Bool.eq_iff_iff, hasComma_iff, hasSeparator_iff]
  constructor
  · intro hmem
    rcases List.eq_nil_or_concat (t.children.map Tree.kind) with hnil | ⟨init, last, heq⟩
    · rw [hnil] at hmem
      cases hmem
    · have hcomma := h.comma
      rw [heq, List.concat_eq_append] at hmem hcomma ⊢
      rw [List.dropLast_concat] at hcomma
      rw [List.getLast?_concat]
      rcases List.mem_append.1 hmem with hmem | hmem
      · exact absurd hmem hcomma
      · rw [List.mem_singleton.1 hmem]
  · exact List.mem_of_getLast?

/-! ## What a node sees of its children -/

def sketch (t : Tree) : Kind × Bool := (t.kind, isItem t && t.hasComma)

theorem commas_eq {item : NodeKind} (hitem : isItemKind item = true) (children : List Tree) :
    (children.filter (Tree.isNode item)).map Tree.hasComma =
      ((children.map sketch).filter fun s => s.1 == .node item).map Prod.snd := by
  rw [List.filter_map, List.map_map]
  refine List.map_congr_left fun c hc => ?_
  obtain ⟨_, hnode⟩ := List.mem_filter.1 hc
  have hisItem : isItem c = true := by rw [Tree.eq_node_of_isNode hnode, isItem_node, hitem]
  rw [Function.comp_apply, sketch, hisItem, Bool.true_and]

theorem separated_iff {item : NodeKind} {children : List Tree} :
    Separated item children ↔
      ∀ b ∈ ((children.filter (Tree.isNode item)).map Tree.hasComma).dropLast, b = true := by
  rw [Separated, ← List.map_dropLast, List.forall_mem_map]

theorem isItemKind_of_itemKind? {kind item : NodeKind} (h : itemKind? kind = some item) :
    isItemKind item = true := by
  cases kind <;> cases h <;> rfl

theorem kinds_eq {cs ds : List Tree} (h : cs.map sketch = ds.map sketch) :
    cs.map Tree.kind = ds.map Tree.kind := by
  have := congrArg (List.map Prod.fst) h
  rwa [List.map_map, List.map_map] at this

theorem NodeShape.congr {kind : NodeKind} {cs ds : List Tree}
    (h : cs.map sketch = ds.map sketch) (hs : NodeShape kind cs) : NodeShape kind ds := by
  have hkinds := kinds_eq h
  refine ⟨hkinds ▸ hs.tight, fun item hitem => ⟨hkinds ▸ (hs.list item hitem).1, ?_⟩,
    hkinds ▸ hs.element⟩
  have hseparated := separated_iff.1 (hs.list item hitem).2
  rw [commas_eq (isItemKind_of_itemKind? hitem), h,
    ← commas_eq (isItemKind_of_itemKind? hitem)] at hseparated
  exact separated_iff.2 hseparated

/-! ## Replacing a node -/

theorem sketch_eq_of_kind {old new : Tree} (hkind : new.kind = old.kind)
    (hold : isItem old = false) : sketch new = sketch old := by
  have hnew : isItem new = false := by
    rw [isItem, Tree.isNode, Tree.isNode, hkind]
    exact hold
  rw [sketch, sketch, hkind, hold, hnew, Bool.false_and, Bool.false_and]

theorem sketch_node {kind : NodeKind} {cs ds : List Tree} (h : cs.map sketch = ds.map sketch) :
    sketch (.node kind cs) = sketch (.node kind ds) := by
  have hcomma : (Source.Tree.node kind cs).hasComma = (Source.Tree.node kind ds).hasComma := by
    rw [Bool.eq_iff_iff, hasComma_iff, hasComma_iff, Tree.children_node, Tree.children_node,
      kinds_eq h]
  rw [sketch, sketch, hcomma]
  rfl

theorem forall_mem_replaced {P : Tree → Prop} {left right : List Tree} {old new : Tree}
    (h : ∀ c ∈ left ++ old :: right, P c) (hnew : P new) : ∀ c ∈ left ++ new :: right, P c := by
  intro c hc
  rcases List.mem_append.1 hc with hc | hc
  · exact h c (List.mem_append_left _ hc)
  · rcases List.mem_cons.1 hc with rfl | hc
    · exact hnew
    · exact h c (List.mem_append_right _ (List.mem_cons_of_mem _ hc))

/-- A node may make way for another one of its kind, unless its comma counts. -/
theorem Shaped.set {t old new : Tree} {path : List Nat} (h : Shaped t)
    (hget : t.get? path = some old) (hkind : new.kind = old.kind) (hold : isItem old = false)
    (hnew : Shaped new) : Shaped (t.set path new) ∧ sketch (t.set path new) = sketch t := by
  induction path generalizing t with
  | nil =>
    obtain rfl : t = old := Option.some.inj hget
    rw [Tree.set]
    exact ⟨hnew, sketch_eq_of_kind hkind hold⟩
  | cons i path ih =>
    cases h with
    | token u => cases hget
    | node hshape hchildren =>
      obtain ⟨c, hc, hget⟩ := Option.bind_eq_some_iff.1 hget
      obtain ⟨hset, hsketch⟩ := ih (hchildren c (List.mem_of_getElem? hc)) hget
      obtain ⟨left, right, rfl, hmodify⟩ := modify_at hc
      have hmap : (left ++ c :: right).map sketch =
          (left ++ c.set path new :: right).map sketch := by
        rw [List.map_append, List.map_append, List.map_cons, List.map_cons, hsketch]
      rw [Tree.set, hmodify]
      refine ⟨.node (hshape.congr hmap) fun d hd => ?_, (sketch_node hmap).symm⟩
      exact forall_mem_replaced hchildren hset d hd

theorem Shaped.get? {t s : Tree} {path : List Nat} (h : Shaped t) (hget : t.get? path = some s) :
    Shaped s := by
  induction path generalizing t with
  | nil =>
    cases hget
    exact h
  | cons i path ih =>
    cases h with
    | token u => cases hget
    | node _ hchildren =>
      obtain ⟨c, hc, hget⟩ := Option.bind_eq_some_iff.1 hget
      exact ih (hchildren c (List.mem_of_getElem? hc)) hget

/-- A path that does not stay at the root leads through one of its children. -/
theorem Rooted.get? {root s : Tree} {path : List Nat} (h : Rooted root)
    (hget : root.get? path = some s) (hpath : path ≠ []) : Shaped s := by
  obtain ⟨children, rfl, hchildren⟩ := h
  cases path with
  | nil => exact absurd rfl hpath
  | cons i path =>
    obtain ⟨c, hc, hget⟩ := Option.bind_eq_some_iff.1 hget
    exact (hchildren c (List.mem_of_getElem? hc)).get? hget

theorem Rooted.set {root old new : Tree} {path : List Nat} (h : Rooted root)
    (hget : root.get? path = some old) (hpath : path ≠ []) (hkind : new.kind = old.kind)
    (hold : isItem old = false) (hnew : Shaped new) : Rooted (root.set path new) := by
  obtain ⟨children, rfl, hchildren⟩ := h
  cases path with
  | nil => exact absurd rfl hpath
  | cons i path =>
    obtain ⟨c, hc, hinner⟩ := Option.bind_eq_some_iff.1 hget
    obtain ⟨left, right, rfl, hmodify⟩ := modify_at hc
    have hset := ((hchildren c (by simp)).set hinner hkind hold hnew).1
    rw [Tree.set, hmodify]
    exact ⟨_, rfl, forall_mem_replaced hchildren hset⟩

/-! ## The shape in terms of places -/

theorem Shaped.tokens {t : Tree} (h : Shaped t) (ht : t.isTrivia = false) :
    (∃ u, t.tokens.head? = some u ∧ u.isTrivia = false) ∧
      ∃ u, t.tokens.getLast? = some u ∧ u.isTrivia = false := by
  induction h with
  | token u => exact ⟨⟨u, rfl, ht⟩, u, rfl, ht⟩
  | @node kind children hshape _ ih =>
    constructor
    · obtain ⟨k, hk, hfirst⟩ := hshape.tight.first
      rw [List.head?_map, Option.map_eq_some_iff] at hk
      obtain ⟨c, hc, rfl⟩ := hk
      obtain ⟨more, rfl⟩ := List.head?_eq_some_iff.1 hc
      obtain ⟨⟨u, hu, hsignificant⟩, _⟩ := ih c (by simp) hfirst
      refine ⟨u, ?_, hsignificant⟩
      rw [Tree.tokens_node, Tree.tokensList_cons, List.head?_append, hu, Option.some_or]
    · obtain ⟨k, hk, hlast⟩ := hshape.tight.last
      rw [List.getLast?_map, Option.map_eq_some_iff] at hk
      obtain ⟨c, hc, rfl⟩ := hk
      obtain ⟨init, rfl⟩ := List.getLast?_eq_some_iff.1 hc
      obtain ⟨_, u, hu, hsignificant⟩ := ih c (by simp) hlast
      refine ⟨u, ?_, hsignificant⟩
      rw [Tree.tokens_node, Tree.tokensList_append, Tree.tokensList_cons, Tree.tokensList_nil,
        List.append_nil, List.getLast?_append, hu, Option.some_or]

/-- The shape of a manifest, said of every place in it. -/
structure WellShaped (root : Tree) : Prop where
  /-- Lists have matching delimiters around trivia and elements, and their elements but the last
  have commas. -/
  lists : ∀ path kind item children, root.get? path = some (.node kind children) →
    itemKind? kind = some item →
    Enclosed item (children.map Tree.kind) ∧
      ∀ e ∈ (children.filter (Tree.isNode item)).dropLast, e.hasComma = true
  /-- Elements hold one expression, and a comma only at their end. -/
  elements : ∀ path e, root.get? path = some e → isItem e = true →
    e.children.countP Tree.isExpr = 1 ∧ (∀ c ∈ e.children.dropLast, c.isToken .comma = false) ∧
      e.hasComma = hasSeparator e
  /-- Arguments have a colon exactly if they start with a label. -/
  labels : ∀ path a, root.get? path = some a → a.isNode .argument = true →
    (a.hasColon = true ↔
      ∃ name more, a.children = .token name :: more ∧ name.kind.isNameLike = true)
  /-- Nodes below the root neither start nor end with trivia. -/
  edges : ∀ path kind children, path ≠ [] → root.get? path = some (.node kind children) →
    (∃ u, (Source.Tree.node kind children).tokens.head? = some u ∧ u.isTrivia = false) ∧
      ∃ u, (Source.Tree.node kind children).tokens.getLast? = some u ∧ u.isTrivia = false

theorem Elemental.label_iff {a : Tree} (h : Elemental .argument (a.children.map Tree.kind)) :
    a.hasColon = true ↔
      ∃ name more, a.children = .token name :: more ∧ name.kind.isNameLike = true := by
  rw [hasColon_iff, h.label rfl]
  constructor
  · rintro ⟨k, hk, hname⟩
    rw [List.head?_map, Option.map_eq_some_iff] at hk
    obtain ⟨c, hc, rfl⟩ := hk
    obtain ⟨more, hmore⟩ := List.head?_eq_some_iff.1 hc
    cases c with
    | token name => exact ⟨name, more, hmore, hname⟩
    | node kind cs => cases hname
  · rintro ⟨name, more, hmore, hname⟩
    exact ⟨.token name.kind, by rw [hmore]; rfl, hname⟩

theorem Rooted.wellShaped {root : Tree} (h : Rooted root) : WellShaped root := by
  -- The root itself is neither a list nor an element.
  have shape {path : List Nat} {kind : NodeKind} {children : List Tree}
      (hget : root.get? path = some (.node kind children)) (hkind : kind ≠ .sourceFile) :
      NodeShape kind children := by
    have hpath : path ≠ [] := by
      rintro rfl
      obtain ⟨cs, rfl, _⟩ := h
      cases hget
      exact hkind rfl
    cases h.get? hget hpath with
    | node hshape _ => exact hshape
  have elemental {path : List Nat} {e : Tree} (hget : root.get? path = some e)
      (he : isItem e = true) : ∃ kind children, e = .node kind children ∧
        Elemental kind (e.children.map Tree.kind) := by
    cases e with
    | token t => cases he
    | node kind children =>
      rw [isItem_node] at he
      have hkind : kind ≠ .sourceFile := by
        rintro rfl
        cases he
      exact ⟨kind, children, rfl, (shape hget hkind).element he⟩
  refine ⟨fun path kind item children hget hitem => ?_, fun path e hget he => ?_,
    fun path a hget ha => ?_, fun path kind children hpath hget => ?_⟩
  · have hkind : kind ≠ .sourceFile := by
      rintro rfl
      cases hitem
    exact (shape hget hkind).list item hitem
  · obtain ⟨kind, children, rfl, hshape⟩ := elemental hget he
    refine ⟨?_, fun c hc => ?_, hshape.hasComma_eq⟩
    · have hvalue := hshape.value
      rw [List.countP_map] at hvalue
      exact hvalue
    · rw [Bool.eq_false_iff]
      intro hcomma
      refine hshape.comma ?_
      rw [← List.map_dropLast]
      exact List.mem_map.2 ⟨c, hc, beq_iff_eq.1 hcomma⟩
  · obtain ⟨kind, children, rfl, hshape⟩ := elemental hget (by rw [isItem, ha, Bool.or_true])
    rw [Tree.isNode_node, beq_iff_eq] at ha
    subst ha
    exact hshape.label_iff
  · exact (h.get? hget hpath).tokens rfl

end PackageManifest.Proofs.Shapes
