import PackageManifest.Proofs.Faithful
import PackageManifest.Proofs.Grammar.Shapes
import PackageManifest.Proofs.Navigation
import PackageManifest.Proofs.Snippets

/-!
# How high a parsed tree is

The limit on nesting counts operands inside operands. What is applied to an operand, one member
access, call or subscript after the other, nests the tree but is not counted. Main statement:
`height_of_parse`. A parsed tree is at most as high as the limit times the length of its longest
chain of applications, up to a constant for each level. No constant bounds the height itself.
-/

namespace PackageManifest.Source.Tree

/-! ## Heights and chains -/

mutual

/-- How many nodes stand above each other in a tree. -/
def height : Tree → Nat
  | token _ => 0
  | node _ cs => heights cs + 1

def heights : List Tree → Nat
  | [] => 0
  | c :: cs => max c.height (heights cs)

end

theorem height_node (k : NodeKind) (cs : List Tree) : (node k cs).height = heights cs + 1 := rfl

theorem heights_le {n : Nat} {cs : List Tree} : heights cs ≤ n ↔ ∀ c ∈ cs, c.height ≤ n := by
  induction cs with
  | nil => simp [heights]
  | cons c cs ih => rw [heights, Nat.max_le, ih, List.forall_mem_cons]

theorem height_node_le {n : Nat} {k : NodeKind} {cs : List Tree} :
    (node k cs).height ≤ n + 1 ↔ ∀ c ∈ cs, c.height ≤ n := by
  rw [height_node, Nat.add_le_add_iff_right]
  exact heights_le

theorem height_lt_of_mem {k : NodeKind} {c : Tree} {cs : List Tree} (h : c ∈ cs) :
    c.height < (node k cs).height := by
  rw [height_node, Nat.lt_succ_iff]
  exact heights_le.1 (Nat.le_refl _) c h

def isApplication : NodeKind → Bool
  | .memberAccessExpr | .callExpr | .subscriptExpr => true
  | _ => false

/-- How many applications a tree ends with, each to the expression before it. -/
def chain : Tree → Nat
  | token _ => 0
  | node _ [] => 0
  | node k (c :: _) => if isApplication k && c.isExpr then c.chain + 1 else 0

mutual

def longestChain : Tree → Nat
  | token _ => 0
  | node k cs => max (node k cs).chain (longestChains cs)

def longestChains : List Tree → Nat
  | [] => 0
  | c :: cs => max c.longestChain (longestChains cs)

end

theorem longestChains_le {n : Nat} {cs : List Tree} :
    longestChains cs ≤ n ↔ ∀ c ∈ cs, c.longestChain ≤ n := by
  induction cs with
  | nil => simp [longestChains]
  | cons c cs ih => rw [longestChains, Nat.max_le, ih, List.forall_mem_cons]

theorem chain_le_longestChain (t : Tree) : t.chain ≤ t.longestChain := by
  cases t with
  | token t => exact Nat.le_refl _
  | node k cs => exact Nat.le_max_left _ _

theorem longestChain_le_of_mem {n : Nat} {k : NodeKind} {c : Tree} {cs : List Tree}
    (h : (node k cs).longestChain ≤ n) (hc : c ∈ cs) : c.longestChain ≤ n := by
  unfold longestChain at h
  exact longestChains_le.1 (Nat.le_trans (Nat.le_max_right _ _) h) c hc

end PackageManifest.Source.Tree

namespace PackageManifest.Proofs.Nesting

open Source Grammar Lexing Snippets

/-! ## Rules -/

/-- If no chain in the tree is longer than `links`, the tree is not higher than `n`. -/
def Low (links n : Nat) (t : Tree) : Prop := t.longestChain ≤ links → t.height ≤ n

variable {links n : Nat}

theorem Low.mono {m : Nat} {t : Tree} (h : Low links n t) (hle : n ≤ m) : Low links m t :=
  fun hlinks => Nat.le_trans (h hlinks) hle

theorem low_node {kind : NodeKind} {cs : List Tree} (h : ∀ c ∈ cs, Low links n c) :
    Low links (n + 1) (.node kind cs) := fun hlinks =>
  Tree.height_node_le.2 fun c hc => h c hc (Tree.longestChain_le_of_mem hlinks hc)

theorem low_token (t : Token) : Low links n (.token t) := fun _ => Nat.zero_le _

theorem low_leaves (ts : List Token) : ∀ c ∈ leaves ts, Low links n c := by
  intro c hc
  obtain ⟨t, _, rfl⟩ := Tree.eq_token_of_mem_leaves hc
  exact low_token t

theorem low_flat (kind : NodeKind) (ts : List Token) : Low links (n + 1) (.node kind (leaves ts)) :=
  low_node (low_leaves ts)

section Rules

variable {P : Tree → Prop} (hP : ∀ {t}, P t → Low links n t)
include hP

theorem Operations.low {due : Nat} {trees : List Tree} (h : Operations P due trees) :
    ∀ c ∈ trees, Low links n c := by
  induction h with
  | done => exact List.forall_mem_nil _
  | step _ _ _ ht _ ih =>
    simp only [List.forall_mem_append, List.forall_mem_cons]
    exact ⟨⟨low_leaves _, low_token _, low_leaves _⟩, hP ht, ih⟩

theorem Sequence.low {t : Tree} (h : Sequence P t) : Low links (n + 1) t := by
  cases h with
  | single ht => exact (hP ht).mono (Nat.le_succ n)
  | joined hfirst _ hmore =>
    exact low_node (List.forall_mem_cons.2 ⟨hP hfirst, Operations.low hP hmore⟩)

theorem Element.low {kind : NodeKind} {separated : Bool} {t : Tree}
    (h : Element P kind separated t) : Low links (n + 2) t := by
  cases h with
  | bare _ hvalue =>
    exact low_node (forall_mem_append_cons (low_leaves _) (Sequence.low hP hvalue)
      (List.forall_mem_nil _))
  | separated _ hvalue _ _ =>
    apply low_node
    simp only [List.forall_mem_append, List.forall_mem_cons]
    exact ⟨⟨low_leaves _, Sequence.low hP hvalue, low_leaves _⟩, low_token _,
      List.forall_mem_nil _⟩

theorem Elements.low {kind : NodeKind} {close : TokenKind} {trees : List Tree}
    (h : Elements P kind close trees) : ∀ c ∈ trees, Low links (n + 2) c := by
  induction h with
  | close _ _ =>
    exact forall_mem_append_cons (low_leaves _) (low_token _) (List.forall_mem_nil _)
  | last _ helement _ _ =>
    simp only [List.forall_mem_append, List.forall_mem_cons]
    exact ⟨⟨low_leaves _, Element.low hP helement, low_leaves _⟩, low_token _,
      List.forall_mem_nil _⟩
  | next _ helement _ ih =>
    exact forall_mem_append_cons (low_leaves _) (Element.low hP helement) ih

theorem Delimited.low {kind item : NodeKind} {opening close : TokenKind} {t : Tree}
    (h : Delimited P kind item opening close t) : Low links (n + 3) t := by
  cases h with
  | intro _ hmore => exact low_node (List.forall_mem_cons.2 ⟨low_token _, Elements.low hP hmore⟩)

theorem Primary.low {t : Tree} (h : Primary P t) : Low links (n + 4) t := by
  cases h with
  | @leaf t kind _ => exact low_flat kind [t]
  | @member dot name _ _ => exact low_flat .memberAccessExpr [dot, name]
  | array harray => exact (Delimited.low hP harray).mono (Nat.le_succ _)
  | tuple hlist =>
    exact low_node (List.forall_mem_cons.2 ⟨Delimited.low hP hlist, List.forall_mem_nil _⟩)
  | block hblock =>
    cases hblock
    exact low_flat .closureExpr _
  | @prefixed op t _ ht =>
    have hparts : ∀ c ∈ [Source.Tree.token op, t], Low links n c :=
      List.forall_mem_cons.2 ⟨low_token _, List.forall_mem_cons.2 ⟨hP ht, List.forall_mem_nil _⟩⟩
    exact (low_node hparts).mono (by omega)

/-- An application is one higher than what it is applied to, as soon as that is as high as the
arguments can be. -/
theorem Application.low {m : Nat} {base t : Tree} (h : Application P base t)
    (hbase : Low links m base) (hm : n + 3 ≤ m) : Low links (m + 1) t := by
  have hblock {t : Tree} (ht : Block t) : Low links m t := by
    cases ht
    exact (low_flat .closureExpr _).mono (Nat.le_trans (Nat.le_add_left _ _) hm)
  have hlist {opening close : TokenKind} {t : Tree} (ht : Arguments P opening close t) :
      Low links m t := (Delimited.low hP ht).mono hm
  cases h with
  | member _ _ _ =>
    apply low_node
    simp only [List.forall_mem_append, List.forall_mem_cons]
    exact ⟨⟨hbase, low_leaves _⟩, low_token _, low_token _, List.forall_mem_nil _⟩
  | call _ _ harguments =>
    exact low_node (List.forall_mem_cons.2 ⟨hbase,
      forall_mem_append_cons (low_leaves _) (hlist harguments) (List.forall_mem_nil _)⟩)
  | callWithBlock _ _ harguments _ _ hbraces =>
    apply low_node
    simp only [List.forall_mem_append, List.forall_mem_cons]
    exact ⟨⟨⟨hbase, low_leaves _⟩, hlist harguments, low_leaves _⟩, hblock hbraces,
      List.forall_mem_nil _⟩
  | subscript _ _ harguments =>
    exact low_node (List.forall_mem_cons.2 ⟨hbase,
      forall_mem_append_cons (low_leaves _) (hlist harguments) (List.forall_mem_nil _)⟩)
  | block _ _ _ hbraces =>
    exact low_node (List.forall_mem_cons.2 ⟨hbase,
      forall_mem_append_cons (low_leaves _) (hblock hbraces) (List.forall_mem_nil _)⟩)

omit hP in
theorem Application.chain_eq {base t : Tree} (h : Application P base t)
    (hbase : base.isExpr = true) : t.chain = base.chain + 1 := by
  cases h <;> simp [Tree.chain, Tree.isApplication, hbase]

theorem Chain.low {t : Tree} (h : Chain P t) : Low links (n + 4 + t.chain) t := by
  induction h with
  | primary hprimary => exact (Primary.low hP hprimary).mono (Nat.le_add_right _ _)
  | @apply base t hbase _ happly ih =>
    have hm : n + 3 ≤ n + 4 + base.chain := by omega
    rw [Application.chain_eq happly hbase.isExpr]
    exact Application.low hP happly ih hm

end Rules

/-- A level of nesting adds the applications of one chain, and four nodes: a sequence, an element, a
list and what the list belongs to. -/
theorem Operand.low {budget : Nat} {t : Tree} (h : Operand budget t) :
    Low links (budget * (links + 4)) t := by
  induction budget generalizing t with
  | zero => exact False.elim h
  | succ budget ih =>
    intro hlinks
    have hchain := Nat.le_trans t.chain_le_longestChain hlinks
    calc t.height
        ≤ budget * (links + 4) + 4 + t.chain := Chain.low ih h hlinks
      _ ≤ budget * (links + 4) + (links + 4) := by omega
      _ = (budget + 1) * (links + 4) := (Nat.succ_mul _ _).symm

/-! ## Manifests -/

def itemHeight (links : Nat) : Nat := maxNesting * (links + 4) + 2

theorem low_statement {kind : NodeKind} (ts : List Token) :
    Low links (itemHeight links) (.node kind (leaves ts)) := low_flat kind ts

theorem bindingTail_low {ts rest : List Token} {trees : List Tree}
    (h : plain (bindingTail ts) = .ok (trees, rest)) :
    ∀ c ∈ trees, Low links (maxNesting * (links + 4) + 1) c := by
  rw [plain_bindingTail] at h
  obtain ⟨name, _, h⟩ := bind_eq_ok.1 h
  obtain ⟨type, htype, h⟩ := bind_eq_ok.1 h
  obtain ⟨equals, _, h⟩ := bind_eq_ok.1 h
  obtain ⟨value, hvalue, h⟩ := bind_eq_ok.1 h
  obtain ⟨last, _, heq⟩ := map_eq_ok.1 h
  cases heq
  have htypes : ∀ c ∈ type.1, Low links (maxNesting * (links + 4) + 1) c := by
    have htype := refusing_eq_ok.1 htype
    rw [plain?_typeClause] at htype
    split at htype
    · cases htype
      simp
    · obtain ⟨inside, _, heq⟩ := Option.map_eq_some_iff.1 htype
      cases heq
      exact forall_mem_append_cons (low_leaves _) (low_flat .typeClause _) (by simp)
  refine forall_mem_append_cons ?_ (Sequence.low Operand.low (expression_sound hvalue).1)
    (low_leaves _)
  simp only [List.forall_mem_append]
  exact ⟨⟨⟨low_leaves _, htypes⟩, low_leaves _⟩, low_leaves _⟩

theorem item_low {t : Token} {ts rest : List Token} {tree : Tree}
    (h : plain (item t ts) = .ok (tree, rest)) : Low links (itemHeight links) tree := by
  cases itemOf_of_item h with
  | semicolon _ => exact low_token t
  | importDecl _ _ | statement _ => exact low_statement _
  | binding _ _ hbinding =>
    exact low_node (List.forall_mem_cons.2 ⟨low_token t, bindingTail_low hbinding⟩)

theorem items_low {ts : List Token} {trees : List Tree} (h : items ts = .ok trees) :
    ∀ c ∈ trees, Low links (itemHeight links) c := by
  induction h using items_induction with
  | done _ _ => exact low_leaves _
  | next _ _ hitem _ ih => exact forall_mem_append_cons (low_leaves _) (item_low hitem) ih

/-- The height of a parsed tree is bounded by the limit on nesting and its longest chain. -/
theorem height_of_parse {source : String} {t : Tree} (h : parse source = .ok t) :
    t.height ≤ maxNesting * (t.longestChain + 4) + 3 := by
  obtain ⟨_, children, hitems, rfl⟩ := RoundTrip.parseText_eq_ok_iff.1 h
  exact low_node (items_low hitems) (Nat.le_refl _)

/-- Calls and member accesses inside of arguments and of a tuple. -/
theorem height_of_parse_nested_chains :
    ∃ t, parse "let x = f(a.b().c, (g[h.i()]))" = .ok t ∧ t.longestChain = 3 ∧
      t.height ≤ maxNesting * 7 + 3 := by
  have hchain : (parse "let x = f(a.b().c, (g[h.i()]))").toOption.map Tree.longestChain =
      some 3 := by
    decide +kernel
  obtain ⟨t, ht, hchain⟩ := Option.map_eq_some_iff.1 hchain
  have ht := RoundTrip.eq_ok_of_toOption ht
  have hheight := height_of_parse ht
  rw [hchain] at hheight
  exact ⟨t, ht, hchain, hheight⟩

/-! ## Calls of calls -/

def noArguments : Tree := .node .argumentList [.token ⟨.lParen, ['(']⟩, .token ⟨.rParen, [')']⟩]

def calls : Nat → Tree
  | 0 => emptyArrayTree
  | n + 1 => .node .callExpr [calls n, noArguments]

/-- Whatever the limit on nesting is, it lets calls of calls pass. -/
theorem calls_chain (P : Tree → Prop) (n : Nat) : Chain P (calls n) := by
  induction n with
  | zero => exact .primary (.array (.intro rfl (.close allTrivia_nil rfl)))
  | succ n ih =>
    have hbase : (calls n).isNode .prefixExpr = false := by cases n <;> rfl
    have hlist : Arguments P .lParen .rParen noArguments :=
      .intro rfl (.close allTrivia_nil rfl)
    exact .apply ih hbase (.call allTrivia_nil rfl hlist)

theorem calls_expression (n : Nat) : Expression (calls n) := .single (calls_chain _ n)

/-- The tokens of calls of calls are marks, which are cut whatever follows. -/
theorem calls_tokens (n : Nat) :
    ∃ more, (calls n).tokens = ⟨.lBracket, ['[']⟩ :: more ∧ Free more := by
  induction n with
  | zero => exact ⟨[⟨.rBracket, [']']⟩], rfl, fun rest => ⟨cuts_mark (by decide) rfl _, trivial⟩⟩
  | succ n ih =>
    obtain ⟨more, htokens, hfree⟩ := ih
    refine ⟨more ++ noArguments.tokens, ?_, hfree.append fun rest => ?_⟩
    · have hcalls : (calls (n + 1)).tokens = (calls n).tokens ++ noArguments.tokens := by
        simp [calls]
      rw [hcalls, htokens, List.cons_append]
    · exact ⟨cuts_mark (by decide) rfl _, cuts_mark (by decide) rfl _, trivial⟩

theorem relexes_calls (n : Nat) : Relexes (calls 0).tokens (calls n).tokens := by
  obtain ⟨more, htokens, hfree⟩ := calls_tokens n
  rw [htokens]
  exact relexes_behind (by decide) (fun rest => fits_of_isMark rfl _) hfree

theorem le_height_calls (n : Nat) : n ≤ (calls n).height := by
  induction n with
  | zero => exact Nat.zero_le _
  | succ n ih =>
    have hlt : (calls n).height < (calls (n + 1)).height :=
      Tree.height_lt_of_mem (List.mem_cons_self ..)
    omega

theorem exists_parse_of_height (n : Nat) : ∃ source t, parse source = .ok t ∧ n ≤ t.height := by
  have hshape : (parse "let x = []").toOption.map (fun root =>
      root.children.map fun c => (c.isNode .variableDecl, c.expr?)) =
        some [(true, some (calls 0))] := by
    decide +kernel
  obtain ⟨root, hroot, hshape⟩ := Option.map_eq_some_iff.1 hshape
  have hfaithful := faithful_of_parse (RoundTrip.eq_ok_of_toOption hroot)
  obtain ⟨children, rfl, hitems, hlexed⟩ := faithful_iff.1 hfaithful
  rw [Tree.children_node] at hshape
  obtain ⟨binding, rfl, hbinding⟩ := List.map_eq_singleton_iff.1 hshape
  obtain ⟨hnode, hvalue⟩ := Prod.mk.inj hbinding
  rw [← List.nil_append [binding]] at hitems
  obtain ⟨b, value, rfl, hbinds, hagain⟩ := items_rebind hitems hnode
  rw [(binding_expr? hbinds hbinds.expression.isExpr []).2] at hvalue
  obtain rfl : value = calls 0 := Option.some.inj hvalue
  -- The value is called `n` times more, and all that stands around it stays.
  have htokens (t : Tree) : (Source.Tree.node .sourceFile [b.tree t]).tokens =
      Tree.tokensList b.front ++ b.sign :: b.blank ++ t.tokens ++ b.last := by
    simp [Binding.tree, Binding.children]
  have hnew : Faithful (.node .sourceFile [b.tree (calls n)]) := by
    refine faithful_iff.2 ⟨_, rfl, (hagain (calls_expression n)).eq_ok, ?_⟩
    rw [htokens] at hlexed ⊢
    exact relexes_calls n _ _ _ hlexed
  have hvalue : (calls n).height < (b.tree (calls n)).height := by
    apply Tree.height_lt_of_mem
    simp [Binding.children]
  have hroot : (b.tree (calls n)).height <
      (Source.Tree.node .sourceFile [b.tree (calls n)]).height :=
    Tree.height_lt_of_mem (List.mem_singleton_self _)
  have hcalls := le_height_calls n
  exact ⟨_, _, hnew, by omega⟩

/-- No constant bounds the height of what is parsed. -/
theorem parse_height_unbounded :
    ¬∃ bound, ∀ source t, parse source = .ok t → t.height ≤ bound := by
  rintro ⟨bound, hbound⟩
  obtain ⟨source, t, hparse, hheight⟩ := exists_parse_of_height (bound + 1)
  have := hbound source t hparse
  omega

end PackageManifest.Proofs.Nesting
