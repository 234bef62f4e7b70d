import PackageManifest.Proofs.Grammar.Ends
import PackageManifest.Proofs.Grammar.Slots
import PackageManifest.Proofs.Grammar.Statements
import PackageManifest.Proofs.RoundTrip
import PackageManifest.Proofs.Shapes

/-!
# The shape of what is parsed

Every node that a rule of the grammar builds has its shape. Each lemma on expressions assumes it of
the operands inside, and `Operand.shaped` closes the loop by induction on the nesting budget. The
nodes of declarations and statements have no more than their ends to show.
-/

namespace PackageManifest.Proofs.Grammar

open Source Shapes

/-! ## Kinds of tokens and of nodes -/

theorem kind_token (t : Token) : (Tree.token t).kind = .token t.kind := rfl

theorem kinds_leaves (ts : List Token) :
    (leaves ts).map Tree.kind = ts.map fun t => .token t.kind := by
  rw [leaves, List.map_map]
  rfl

theorem leaves_append (ts us : List Token) : leaves (ts ++ us) = leaves ts ++ leaves us :=
  List.map_append

theorem shaped_leaves (ts : List Token) : ∀ c ∈ leaves ts, Shaped c := by
  intro c hc
  obtain ⟨t, _, rfl⟩ := Tree.eq_token_of_mem_leaves hc
  exact .token t

theorem isTrivia_of_isExpr {t : Tree} (h : t.isExpr = true) : t.isTrivia = false := by
  cases t with
  | token u => cases h
  | node k cs => rfl

theorem isTrivia_of_isNode {t : Tree} {kind : NodeKind} (h : t.isNode kind = true) :
    t.isTrivia = false := by
  rw [Tree.eq_node_of_isNode h]
  rfl

theorem tight_of {children more init : List Tree} {first last : Tree}
    (hfirst : children = first :: more) (hlast : children = init ++ [last])
    (hfirst' : first.isTrivia = false) (hlast' : last.isTrivia = false) :
    Tight (children.map Tree.kind) := by
  refine ⟨⟨first.kind, by rw [hfirst]; rfl, hfirst'⟩, last.kind, ?_, hlast'⟩
  rw [hlast, List.map_append, List.map_singleton, List.getLast?_concat]

/-- A node that is neither a list nor an element is shaped by its ends. -/
theorem shaped_of_ends {kind : NodeKind} {children more init : List Tree} {first last : Tree}
    (hlist : itemKind? kind = none) (hitem : isItemKind kind = false)
    (hfirst : children = first :: more) (hlast : children = init ++ [last])
    (hfirst' : first.isTrivia = false) (hlast' : last.isTrivia = false)
    (hchildren : ∀ c ∈ children, Shaped c) : Shaped (.node kind children) := by
  refine .node ⟨tight_of hfirst hlast hfirst' hlast', fun item hsome => ?_, fun hsome => ?_⟩
    hchildren
  · rw [hlist] at hsome
    cases hsome
  · rw [hitem] at hsome
    cases hsome

theorem forall_mem_append_cons {P : Tree → Prop} {left right : List Tree} {t : Tree}
    (hleft : ∀ c ∈ left, P c) (ht : P t) (hright : ∀ c ∈ right, P c) :
    ∀ c ∈ left ++ t :: right, P c := by
  rw [List.forall_mem_append, List.forall_mem_cons]
  exact ⟨hleft, ht, hright⟩

section Rules

variable {P : Tree → Prop}

/-! ## Operators -/

theorem Operations.shaped (hP : ∀ t, P t → Shaped t) (hexpr : ∀ t, P t → t.isExpr = true)
    {due : Nat} {trees : List Tree} (h : Operations P due trees) :
    (∀ c ∈ trees, Shaped c) ∧
      (trees ≠ [] → ∃ init last, trees = init ++ [last] ∧ last.isTrivia = false) := by
  induction h with
  | done => exact ⟨List.forall_mem_nil _, fun hne => absurd rfl hne⟩
  | @step due before behind op t more _ _ _ ht _ ih =>
    obtain ⟨hmore, hends⟩ := ih
    have hfront := forall_mem_append_cons (shaped_leaves before) (.token op) (shaped_leaves behind)
    refine ⟨forall_mem_append_cons hfront (hP t ht) hmore, fun _ => ?_⟩
    cases more with
    | nil => exact ⟨_, t, rfl, isTrivia_of_isExpr (hexpr t ht)⟩
    | cons u more =>
      obtain ⟨init, last, hsplit, hlast⟩ := hends (by simp)
      rw [hsplit]
      exact ⟨leaves before ++ .token op :: leaves behind ++ t :: init, last, by simp, hlast⟩

theorem Sequence.shaped (hP : ∀ t, P t → Shaped t) (hexpr : ∀ t, P t → t.isExpr = true) {t : Tree}
    (h : Sequence P t) : Shaped t ∧ t.isExpr = true := by
  cases h with
  | single ht => exact ⟨hP t ht, hexpr t ht⟩
  | @joined first trees hfirst hne hops =>
    obtain ⟨hshaped, hends⟩ := hops.shaped hP hexpr
    obtain ⟨init, last, rfl, hlast⟩ := hends hne
    have hchildren : ∀ c ∈ first :: (init ++ [last]), Shaped c :=
      List.forall_mem_cons.2 ⟨hP first hfirst, hshaped⟩
    exact ⟨shaped_of_ends rfl rfl rfl (List.cons_append ..).symm
      (isTrivia_of_isExpr (hexpr first hfirst)) hlast hchildren, rfl⟩

/-! ## Lists -/

theorem not_mem_kinds_of_allTrivia {ts : List Token} (h : AllTrivia ts) {kind : TokenKind}
    (hkind : kind.isTrivia = false) : Kind.token kind ∉ ts.map fun t => .token t.kind := by
  intro hmem
  obtain ⟨t, ht, heq⟩ := List.mem_map.1 hmem
  have htrivia := h t ht
  rw [Token.isTrivia, Kind.token.inj heq, hkind] at htrivia
  cases htrivia

theorem countP_isExpr_kinds (ts : List Token) :
    (ts.map fun t => Kind.token t.kind).countP Kind.isExpr = 0 := by
  rw [List.countP_eq_zero]
  intro k hk
  obtain ⟨t, _, rfl⟩ := List.mem_map.1 hk
  exact Bool.false_ne_true

theorem Label.not_mem_comma {kind : NodeKind} {label : List Token} (h : Label kind label) :
    Kind.token .comma ∉ label.map fun t => .token t.kind := by
  cases h with
  | none => exact List.not_mem_nil
  | @some name colon before behind _ hname hbefore hcolon hbehind =>
    rw [List.cons_append, List.map_cons, List.map_append, List.map_cons, List.mem_cons,
      List.mem_append, List.mem_cons]
    rintro (heq | hmem | heq | hmem)
    · rw [← Kind.token.inj heq] at hname
      cases hname
    · exact not_mem_kinds_of_allTrivia hbefore rfl hmem
    · rw [hcolon] at heq
      cases heq
    · exact not_mem_kinds_of_allTrivia hbehind rfl hmem

theorem Label.elemental {kind : NodeKind} {label before : List Token} {value : Kind}
    {commas : List Kind} (h : Label kind label) (hvalue : value.isExpr = true)
    (hbefore : AllTrivia before) (hcommas : commas = [] ∨ commas = [.token .comma]) :
    Elemental kind (label.map (fun t => .token t.kind) ++
      value :: before.map (fun t => .token t.kind) ++ commas) := by
  have hnode : ∀ k, Kind.token k ≠ value := by
    rintro k rfl
    cases hvalue
  have hcomma : Kind.token .comma ∉ label.map (fun t => .token t.kind) ++
      value :: before.map (fun t => .token t.kind) := by
    rw [List.mem_append, List.mem_cons]
    rintro (hmem | heq | hmem)
    · exact h.not_mem_comma hmem
    · exact hnode _ heq
    · exact not_mem_kinds_of_allTrivia hbefore rfl hmem
  refine ⟨?_, ?_, fun _ => ?_⟩
  · have hzero : commas.countP Kind.isExpr = 0 := by
      rcases hcommas with rfl | rfl <;> rfl
    rw [List.countP_append, List.countP_append, List.countP_cons_of_pos hvalue,
      countP_isExpr_kinds, countP_isExpr_kinds, hzero]
  · rcases hcommas with rfl | rfl
    · rw [List.append_nil]
      exact fun hmem => hcomma ((List.dropLast_sublist _).subset hmem)
    · rwa [List.dropLast_concat]
  · cases h with
    | none =>
      -- What starts with the value has no label, and no colon behind it.
      have hcolon : Kind.token .colon ∉ commas := by
        rcases hcommas with rfl | rfl <;> decide
      constructor
      · intro hmem
        rw [List.map_nil, List.nil_append, List.mem_append, List.mem_cons] at hmem
        rcases hmem with (heq | hmem) | hmem
        · exact absurd heq (hnode _)
        · exact absurd hmem (not_mem_kinds_of_allTrivia hbefore rfl)
        · exact absurd hmem hcolon
      · rintro ⟨k, hk, hname⟩
        obtain rfl : value = k := Option.some.inj hk
        cases value with
        | token k => exact absurd rfl (hnode k)
        | node k => cases hname
    | @some name colon _ _ _ hname _ hcolon _ =>
      have hmem : Kind.token .colon = .token colon.kind := by rw [hcolon]
      exact ⟨fun _ => ⟨.token name.kind, rfl, hname⟩, fun _ => by simp [hmem]⟩

theorem isTrivia_of_isNameLike {u : Token} (h : u.kind.isNameLike = true) :
    u.isTrivia = false := by
  rw [Token.isTrivia]
  cases hkind : u.kind <;> rw [hkind] at h <;> first | rfl | cases h

theorem isTrivia_of_endsOperand {u : Token} (h : endsOperand u.kind = true) :
    (Tree.token u).isTrivia = false := by
  rw [Tree.isTrivia_token, Token.isTrivia]
  cases hkind : u.kind <;> rw [hkind] at h <;> first | rfl | cases h

theorem Label.first {kind : NodeKind} {label : List Token} (h : Label kind label) {value : Tree}
    (hvalue : value.isTrivia = false) (more : List Tree) :
    ∃ first rest, leaves label ++ value :: more = first :: rest ∧ first.isTrivia = false := by
  cases h with
  | none => exact ⟨value, more, rfl, hvalue⟩
  | some _ hname => exact ⟨_, _, rfl, isTrivia_of_isNameLike hname⟩

theorem Element.shaped (hP : ∀ t, P t → Shaped t) (hexpr : ∀ t, P t → t.isExpr = true)
    {kind : NodeKind} (hkind : isItemKind kind = true) {separated : Bool} {e : Tree}
    (h : Element P kind separated e) : Shaped e ∧ (separated = true → e.hasComma = true) := by
  have hlist : itemKind? kind = none := by cases kind <;> first | rfl | cases hkind
  cases h with
  | @bare label value hlabel hvalue =>
    obtain ⟨hshaped, hisExpr⟩ := hvalue.shaped hP hexpr
    obtain ⟨first, rest, hfirst, hsignificant⟩ := hlabel.first (isTrivia_of_isExpr hisExpr) []
    have helemental := hlabel.elemental hisExpr allTrivia_nil (.inl rfl)
    refine ⟨.node ⟨tight_of hfirst rfl hsignificant (isTrivia_of_isExpr hisExpr), ?_, fun _ => ?_⟩
      (forall_mem_append_cons (shaped_leaves label) hshaped (by simp)), Bool.noConfusion⟩
    · simp [hlist]
    · simpa [kinds_leaves] using helemental
  | @separated label before value comma hlabel hvalue hbefore hcomma =>
    obtain ⟨hshaped, hisExpr⟩ := hvalue.shaped hP hexpr
    obtain ⟨first, rest, hfirst, hsignificant⟩ :=
      hlabel.first (isTrivia_of_isExpr hisExpr) (leaves before ++ [.token comma])
    have helemental := hlabel.elemental hisExpr hbefore (.inr rfl)
    have hlast : (Tree.token comma).isTrivia = false := isTrivia_of_kind hcomma rfl
    refine ⟨.node ⟨tight_of (by simpa using hfirst) rfl hsignificant hlast, ?_, fun _ => ?_⟩ ?_,
      fun _ => ?_⟩
    · simp [hlist]
    · simpa [kinds_leaves, kind_token, hcomma] using helemental
    · have hbehind := forall_mem_append_cons (shaped_leaves before) (.token comma)
        (List.forall_mem_nil _)
      have := forall_mem_append_cons (shaped_leaves label) hshaped hbehind
      simpa using this
    · rw [hasComma_iff]
      simp [kind_token, hcomma]

theorem mem_dropLast_cons {e x : Tree} {es : List Tree} (h : x ∈ (e :: es).dropLast) :
    x = e ∨ x ∈ es.dropLast := by
  cases es with
  | nil => cases h
  | cons f es => exact List.mem_cons.1 h

theorem separated_leaves_append {item : NodeKind} {ts : List Token} {trees : List Tree} :
    Separated item (leaves ts ++ trees) ↔ Separated item trees := by
  rw [Separated, Separated, List.filter_append, Tree.filter_isNode_leaves, List.nil_append]

theorem Elements.shaped (hP : ∀ t, P t → Shaped t) (hexpr : ∀ t, P t → t.isExpr = true)
    {item : NodeKind} (hitem : isItemKind item = true) {close : TokenKind} {trees : List Tree}
    (h : Elements P item close trees) :
    (∀ c ∈ trees, Shaped c) ∧ Separated item trees ∧
      ∃ inside, trees.map Tree.kind = inside ++ [.token close] ∧
        ∀ k ∈ inside, isTriviaKind k = true ∨ k = .node item := by
  have trivia_inside {ts : List Token} (hts : AllTrivia ts) :
      ∀ k ∈ ts.map (fun t => Kind.token t.kind), isTriviaKind k = true ∨ k = .node item := by
    intro k hk
    obtain ⟨t, ht, rfl⟩ := List.mem_map.1 hk
    exact .inl (hts t ht)
  have kind_eq {separated : Bool} {e : Tree} (he : Element P item separated e) :
      e.kind = .node item := beq_iff_eq.1 he.isNode
  induction h with
  | @close before t hbefore ht =>
    refine ⟨forall_mem_append_cons (shaped_leaves before) (.token t) (by simp), ?_,
      before.map fun t => .token t.kind, by simp [kinds_leaves, kind_token, ht],
      trivia_inside hbefore⟩
    rw [separated_leaves_append]
    exact List.forall_mem_nil _
  | @last before behind e t hbefore he hbehind ht =>
    have hshaped := (he.shaped hP hexpr hitem).1
    have hbehind' := forall_mem_append_cons (shaped_leaves behind) (.token t)
      (List.forall_mem_nil _)
    rw [List.append_assoc, List.cons_append]
    refine ⟨forall_mem_append_cons (shaped_leaves before) hshaped hbehind', ?_,
      before.map (fun t => .token t.kind) ++ .node item :: behind.map (fun t => .token t.kind),
      by simp [kinds_leaves, kind_token, ht, kind_eq he], ?_⟩
    · rw [separated_leaves_append, Separated, List.filter_cons_of_pos he.isNode,
        List.filter_append, Tree.filter_isNode_leaves, List.nil_append,
        List.filter_cons_of_neg (by simp), List.filter_nil]
      exact List.forall_mem_nil _
    · rw [List.forall_mem_append, List.forall_mem_cons]
      exact ⟨trivia_inside hbefore, .inr rfl, trivia_inside hbehind⟩
  | @next before e more hbefore he _ ih =>
    obtain ⟨hshaped, hcomma⟩ := he.shaped hP hexpr hitem
    obtain ⟨hmore, hseparated, inside, hkinds, hinside⟩ := ih
    refine ⟨forall_mem_append_cons (shaped_leaves before) hshaped hmore, ?_,
      before.map (fun t => .token t.kind) ++ .node item :: inside,
      by simp [kinds_leaves, kind_eq he, hkinds], ?_⟩
    · rw [separated_leaves_append, Separated, List.filter_cons_of_pos he.isNode]
      intro x hx
      rcases mem_dropLast_cons hx with rfl | hx
      · exact hcomma rfl
      · exact hseparated x hx
    · rw [List.forall_mem_append, List.forall_mem_cons]
      exact ⟨trivia_inside hbefore, .inr rfl, hinside⟩

theorem isItemKind_of_list {kind item : NodeKind} (h : itemKind? kind = some item) :
    isItemKind kind = false := by
  cases kind <;> first | rfl | cases h

theorem Delimited.shaped (hP : ∀ t, P t → Shaped t) (hexpr : ∀ t, P t → t.isExpr = true)
    {kind item : NodeKind} (hkind : itemKind? kind = some item) {opening close : TokenKind}
    (hclose : opening.closing? = some close) {t : Tree}
    (h : Delimited P kind item opening close t) : Shaped t := by
  cases h with
  | @intro opener children hopener helements =>
    obtain ⟨hshaped, hseparated, inside, hkinds, hinside⟩ :=
      helements.shaped hP hexpr (isItemKind_of_itemKind? hkind)
    have hall : (Tree.token opener :: children).map Tree.kind =
        .token opening :: (inside ++ [.token close]) := by
      rw [List.map_cons, hkinds, Tree.kind, hopener]
    have henclosed : Enclosed item ((Tree.token opener :: children).map Tree.kind) :=
      ⟨opening, close, inside, hall, hclose, hinside⟩
    refine .node ⟨henclosed.tight, fun other hother => ?_, fun hitem => ?_⟩
      (List.forall_mem_cons.2 ⟨.token opener, hshaped⟩)
    · obtain rfl := Option.some.inj (hkind.symm.trans hother)
      refine ⟨henclosed, ?_⟩
      rwa [Separated, List.filter_cons_of_neg (by simp)]
    · rw [isItemKind_of_list hkind] at hitem
      cases hitem

/-! ## Operands -/

theorem Block.shaped {t : Tree} (h : Block t) : Shaped t := by
  obtain ⟨before, u, htokens, hu⟩ := h.ends
  cases h with
  | @intro first ts hfirst _ =>
    rw [Tree.tokens_node, tokensList_leaves] at htokens
    have hsignificant : (Tree.token first).isTrivia = false := isTrivia_of_kind hfirst rfl
    have hlast : leaves (first :: ts) = leaves before ++ [.token u] := by
      rw [htokens, leaves_append]
      rfl
    exact shaped_of_ends rfl rfl rfl hlast hsignificant (isTrivia_of_endsOperand hu)
      (shaped_leaves _)

theorem leaf_plain {kind : TokenKind} {node : NodeKind} (h : leafKind? kind = some node) :
    itemKind? node = none ∧ isItemKind node = false ∧ kind.isTrivia = false := by
  cases kind <;> cases h <;> exact ⟨rfl, rfl, rfl⟩

theorem Primary.shaped (hP : ∀ t, P t → Shaped t) (hexpr : ∀ t, P t → t.isExpr = true) {t : Tree}
    (h : Primary P t) : Shaped t := by
  cases h with
  | @leaf u kind hkind =>
    obtain ⟨hlist, hitem, hu⟩ := leaf_plain hkind
    exact shaped_of_ends hlist hitem rfl (List.nil_append _).symm hu hu (shaped_leaves [u])
  | @member dot name hdot hname =>
    have hfirst : (Tree.token dot).isTrivia = false := isTrivia_of_kind hdot rfl
    exact shaped_of_ends rfl rfl rfl (List.singleton_append ..).symm hfirst
      (isTrivia_of_endsOperand (endsOperand_of_isMemberName hname)) (shaped_leaves [dot, name])
  | array harray => exact harray.shaped hP hexpr rfl rfl
  | @tuple list hlist =>
    have hsignificant := isTrivia_of_isNode hlist.isNode
    have hshaped := hlist.shaped hP hexpr rfl rfl
    exact shaped_of_ends rfl rfl rfl (List.nil_append _).symm hsignificant hsignificant
      (by simpa using hshaped)
  | block hblock => exact hblock.shaped
  | @prefixed op value hop hvalue =>
    have hfirst : (Tree.token op).isTrivia = false := isTrivia_of_kind hop rfl
    refine shaped_of_ends rfl rfl rfl (List.singleton_append ..).symm hfirst
      (isTrivia_of_isExpr (hexpr value hvalue)) ?_
    simpa using ⟨Shaped.token op, hP value hvalue⟩

theorem Application.shaped (hP : ∀ t, P t → Shaped t) (hexpr : ∀ t, P t → t.isExpr = true)
    {base t : Tree} (hbase : Shaped base) (hbase' : base.isExpr = true)
    (h : Application P base t) : Shaped t := by
  have hfirst := isTrivia_of_isExpr hbase'
  have list_last {opening close : TokenKind} {list : Tree} (hclose : opening.closing? = some close)
      (hlist : Arguments P opening close list) : Shaped list ∧ list.isTrivia = false :=
    ⟨hlist.shaped hP hexpr rfl hclose, isTrivia_of_isNode hlist.isNode⟩
  have block_last {block : Tree} (hblock : Block block) :
      Shaped block ∧ block.isTrivia = false := ⟨hblock.shaped, isTrivia_of_isNode hblock.isNode⟩
  -- All of them start with the base, behind which comes trivia, and end with something shaped.
  have front (before : List Token) {last : Tree} (hlast : Shaped last) :
      ∀ c ∈ base :: leaves before ++ [last], Shaped c :=
    forall_mem_append_cons (List.forall_mem_cons.2 ⟨hbase, shaped_leaves before⟩) hlast
      (List.forall_mem_nil _)
  cases h with
  | @member before dot name _ _ hname =>
    have hall := forall_mem_append_cons (front before (.token dot)) (.token name)
      (List.forall_mem_nil _)
    rw [List.append_cons _ (Tree.token dot)]
    exact shaped_of_ends rfl rfl rfl rfl hfirst
      (isTrivia_of_endsOperand (endsOperand_of_isMemberName hname)) hall
  | @call before list _ _ hlist =>
    obtain ⟨hshaped, hlast⟩ := list_last rfl hlist
    exact shaped_of_ends rfl rfl rfl rfl hfirst hlast (front before hshaped)
  | @callWithBlock before between list block _ _ hlist _ _ hblock =>
    obtain ⟨hshaped, hlast⟩ := block_last hblock
    have hmiddle := forall_mem_append_cons
      (List.forall_mem_cons.2 ⟨hbase, shaped_leaves before⟩) (list_last rfl hlist).1
      (shaped_leaves between)
    exact shaped_of_ends rfl rfl rfl rfl hfirst hlast
      (forall_mem_append_cons hmiddle hshaped (List.forall_mem_nil _))
  | @subscript before list _ _ hlist =>
    obtain ⟨hshaped, hlast⟩ := list_last rfl hlist
    exact shaped_of_ends rfl rfl rfl rfl hfirst hlast (front before hshaped)
  | @block before block _ _ _ hblock =>
    obtain ⟨hshaped, hlast⟩ := block_last hblock
    exact shaped_of_ends rfl rfl rfl rfl hfirst hlast (front before hshaped)

theorem Chain.shaped (hP : ∀ t, P t → Shaped t) (hexpr : ∀ t, P t → t.isExpr = true) {t : Tree}
    (h : Chain P t) : Shaped t := by
  induction h with
  | primary hprimary => exact hprimary.shaped hP hexpr
  | apply hbase _ happ ih => exact happ.shaped hP hexpr ih hbase.isExpr

end Rules

theorem Operand.isExpr {budget : Nat} {t : Tree} (h : Operand budget t) : t.isExpr = true := by
  cases budget with
  | zero => exact h.elim
  | succ budget => exact Chain.isExpr h

theorem Operand.shaped {budget : Nat} {t : Tree} (h : Operand budget t) : Shaped t := by
  induction budget generalizing t with
  | zero => exact h.elim
  | succ budget ih => exact Chain.shaped (fun _ => ih) (fun _ => Operand.isExpr) h

theorem Expression.shaped {t : Tree} (h : Expression t) : Shaped t :=
  (Sequence.shaped (fun _ => Operand.shaped) (fun _ => Operand.isExpr) h).1

/-! ## Declarations and statements -/

def NoTrailing (trees : List Tree) : Prop := ∀ t, trees.getLast? = some t → t.isTrivia = false

theorem noTrailing_nil : NoTrailing [] := fun _ h => by cases h

theorem noTrailing_concat (trees : List Tree) {t : Tree} (ht : t.isTrivia = false) :
    NoTrailing (trees ++ [t]) := by
  intro u hu
  rw [List.getLast?_concat] at hu
  rwa [← Option.some.inj hu]

theorem noTrailing_token (ts : List Token) {t : Token} (ht : t.isTrivia = false) :
    NoTrailing (leaves (ts ++ [t])) := by
  rw [leaves_append]
  exact noTrailing_concat _ ht

theorem NoTrailing.append {as bs : List Tree} (has : NoTrailing as) (hbs : NoTrailing bs) :
    NoTrailing (as ++ bs) := by
  rcases List.eq_nil_or_concat bs with rfl | ⟨init, last, rfl⟩
  · rwa [List.append_nil]
  · rw [List.concat_eq_append, ← List.append_assoc]
    exact noTrailing_concat _ (hbs last (by simp))

theorem shaped_of_noTrailing {kind : NodeKind} {t : Token} {more : List Tree}
    (hlist : itemKind? kind = none) (hitem : isItemKind kind = false) (ht : t.isTrivia = false)
    (hmore : NoTrailing more) (hshaped : ∀ c ∈ more, Shaped c) :
    Shaped (.node kind (.token t :: more)) := by
  have hends : NoTrailing ([.token t] ++ more) := NoTrailing.append (noTrailing_token [] ht) hmore
  rw [List.singleton_append] at hends
  rcases List.eq_nil_or_concat (Tree.token t :: more) with hnil | ⟨init, last, hlast⟩
  · cases hnil
  · rw [List.concat_eq_append] at hlast
    refine shaped_of_ends hlist hitem rfl hlast ht (hends last ?_)
      (List.forall_mem_cons.2 ⟨.token t, hshaped⟩)
    rw [hlast, List.getLast?_concat]

theorem expectNext?_noTrailing {kind : TokenKind} (hkind : kind.isTrivia = false)
    {ts inside rest : List Token} (h : plain? (expectNext? kind ts) = some (inside, rest)) :
    NoTrailing (leaves inside) := by
  rw [plain?_expectNext?] at h
  obtain ⟨⟨t, after⟩, ht, heq⟩ := Option.map_eq_some_iff.1 h
  cases heq
  exact noTrailing_token _ (isTrivia_of_kind (expect?_eq_some ht).2 hkind)

theorem statementEnd?_noTrailing {ts inside rest : List Token}
    (h : plain? (statementEnd? ts) = some (inside, rest)) : NoTrailing (leaves inside) := by
  rw [plain?_statementEnd?] at h
  split at h
  · rename_i hsemicolon
    cases h
    exact expectNext?_noTrailing rfl hsemicolon
  · split at h
    · cases h
      exact noTrailing_nil
    · cases h

theorem importPath_noTrailing {ts inside rest : List Token}
    (h : plain? (importPath ts) = some (inside, rest)) : NoTrailing (leaves inside) := by
  induction hn : ts.length using Nat.strongRecOn generalizing ts inside with
  | ind n ih =>
    rw [plain?_importPath] at h
    split at h
    · cases h
      exact noTrailing_nil
    · split at h
      · cases h
        exact noTrailing_nil
      · rename_i dot hdot
        obtain ⟨name, hname, hmore⟩ := Option.bind_eq_some_iff.1 h
        obtain ⟨more, hpath, heq⟩ := Option.map_eq_some_iff.1 hmore
        cases heq
        have hlt : name.2.length < n := by
          have := length_lt_of_plain? hdot
          have := length_lt_of_plain? hname
          omega
        rw [leaves_append, leaves_append]
        exact ((expectNext?_noTrailing rfl hdot).append (expectNext?_noTrailing rfl hname)).append
          (ih _ hlt hpath rfl)

theorem importTail_noTrailing {ts inside rest : List Token}
    (h : plain? (importTail ts) = some (inside, rest)) : NoTrailing (leaves inside) := by
  rw [plain?_importTail] at h
  obtain ⟨name, hname, h⟩ := Option.bind_eq_some_iff.1 h
  obtain ⟨path, hpath, h⟩ := Option.bind_eq_some_iff.1 h
  obtain ⟨last, hlast, heq⟩ := Option.map_eq_some_iff.1 h
  cases heq
  rw [leaves_append, leaves_append]
  exact ((expectNext?_noTrailing rfl hname).append (importPath_noTrailing hpath)).append
    (statementEnd?_noTrailing hlast)

theorem typeTokens_noTrailing {depth : Nat} {ts inside rest : List Token}
    (h : plain? (typeTokens depth ts) = some (inside, rest)) : NoTrailing (leaves inside) := by
  induction hn : ts.length using Nat.strongRecOn generalizing depth ts inside with
  | ind n ih =>
    cases hafter : afterTrivia ts with
    | nil =>
      rw [plain?_typeTokens_nil hafter] at h
      cases h
    | cons t after =>
      rw [plain?_typeTokens_cons hafter] at h
      split at h
      · cases h
        exact noTrailing_nil
      · split at h
        · cases h
        · obtain ⟨more, hmore, heq⟩ := Option.map_eq_some_iff.1 h
          cases heq
          have hlt : after.length < n := hn ▸ length_lt_of_afterTrivia hafter
          rw [List.append_cons, leaves_append]
          exact (noTrailing_token _ (isTrivia_of_afterTrivia hafter)).append (ih _ hlt hmore rfl)

theorem typeClause_shaped {ts rest : List Token} {trees : List Tree}
    (h : plain? (typeClause ts) = some (trees, rest)) :
    NoTrailing trees ∧ ∀ c ∈ trees, Shaped c := by
  rw [plain?_typeClause] at h
  split at h
  · cases h
    exact ⟨noTrailing_nil, List.forall_mem_nil _⟩
  · rename_i colon after hcolon
    obtain ⟨inside, htype, heq⟩ := Option.map_eq_some_iff.1 h
    cases heq
    have hshaped : Shaped (.node .typeClause (leaves (colon :: inside.1))) :=
      shaped_of_noTrailing rfl rfl (isTrivia_of_kind (expect?_eq_some hcolon).2 rfl)
        (typeTokens_noTrailing htype) (shaped_leaves _)
    exact ⟨noTrailing_concat _ rfl, forall_mem_append_cons (shaped_leaves _) hshaped (by simp)⟩

theorem bindingTail_shaped {ts rest : List Token} {trees : List Tree}
    (h : plain (bindingTail ts) = .ok (trees, rest)) :
    NoTrailing trees ∧ ∀ c ∈ trees, Shaped c := by
  rw [plain_bindingTail] at h
  obtain ⟨name, hname, h⟩ := bind_eq_ok.1 h
  obtain ⟨type, htype, h⟩ := bind_eq_ok.1 h
  obtain ⟨equals, hequals, h⟩ := bind_eq_ok.1 h
  obtain ⟨value, hvalue, h⟩ := bind_eq_ok.1 h
  obtain ⟨last, hlast, heq⟩ := map_eq_ok.1 h
  cases heq
  have hexpr := (expression_sound hvalue).1
  have hsignificant := isTrivia_of_isExpr hexpr.isExpr
  obtain ⟨_, htypeShaped⟩ := typeClause_shaped (refusing_eq_ok.1 htype)
  constructor
  · rw [List.append_cons]
    exact (noTrailing_concat _ hsignificant).append
      (statementEnd?_noTrailing (refusing_eq_ok.1 hlast))
  · have hfront : ∀ c ∈ leaves name.1 ++ type.1 ++ leaves equals.1 ++ leaves (trivia equals.2),
        Shaped c := by
      simp only [List.forall_mem_append]
      exact ⟨⟨⟨shaped_leaves _, htypeShaped⟩, shaped_leaves _⟩, shaped_leaves _⟩
    exact forall_mem_append_cons hfront hexpr.shaped (shaped_leaves _)

/-- A statement starts with its first token and ends with a significant one: at the end of the
input it leaves the trivia behind it. -/
theorem statementTokens_noTrailing {opened : List Opener} {t : Token}
    {ts inside rest : List Token} (ht : t.isTrivia = false)
    (h : plain (statementTokens opened t ts) = .ok (inside, rest)) :
    ∃ more, inside = t :: more ∧ NoTrailing (leaves more) := by
  induction hn : ts.length using Nat.strongRecOn generalizing opened t ts inside with
  | ind n ih =>
    rw [plain_statementTokens] at h
    obtain ⟨inner, _, h⟩ := bind_eq_ok.1 h
    split at h
    · cases h
      exact ⟨[], rfl, noTrailing_nil⟩
    · rename_i hend
      split at h
      · rename_i u us hafter
        obtain ⟨⟨more, rest'⟩, hmore, heq⟩ := map_eq_ok.1 h
        cases heq
        have hlt : us.length < n := hn ▸ length_lt_of_afterTrivia hafter
        obtain ⟨behind, rfl, hbehind⟩ := ih _ hlt (isTrivia_of_afterTrivia hafter) hmore rfl
        refine ⟨trivia ts ++ u :: behind, rfl, ?_⟩
        rw [List.append_cons, leaves_append]
        exact (noTrailing_token _ (isTrivia_of_afterTrivia hafter)).append hbehind
      · rename_i hafter
        split at h
        · cases h
        · -- With nothing open, the end of the input ends the statement before.
          refine absurd ?_ hend
          simp [endsBefore, nextKind, hafter, headKind]

/-! ## Manifests -/

theorem item_shaped {t : Token} {ts rest : List Token} {tree : Tree} (ht : t.isTrivia = false)
    (h : plain (item t ts) = .ok (tree, rest)) : Shaped tree := by
  cases itemOf_of_item h with
  | semicolon _ => exact .token t
  | importDecl _ himport =>
    exact shaped_of_noTrailing rfl rfl ht (importTail_noTrailing himport) (shaped_leaves _)
  | binding _ _ hbinding =>
    obtain ⟨hends, hshaped⟩ := bindingTail_shaped hbinding
    exact shaped_of_noTrailing rfl rfl ht hends hshaped
  | statement hinside =>
    obtain ⟨more, rfl, hmore⟩ := statementTokens_noTrailing ht hinside
    exact shaped_of_noTrailing rfl rfl ht hmore (shaped_leaves _)

theorem items_shaped {ts : List Token} {trees : List Tree} (h : items ts = .ok trees) :
    ∀ c ∈ trees, Shaped c := by
  induction h using items_induction with
  | done _ _ => exact shaped_leaves _
  | next _ hafter hitem _ ih =>
    exact forall_mem_append_cons (shaped_leaves _)
      (item_shaped (isTrivia_of_afterTrivia hafter) hitem) ih

theorem rooted_of_parse {source : String} {root : Tree} (h : parse source = .ok root) :
    Rooted root := by
  obtain ⟨_, children, hitems, rfl⟩ := RoundTrip.parseText_eq_ok_iff.1 h
  exact ⟨children, rfl, items_shaped hitems⟩

theorem shaped_of_parseExpressionText {input : List Char} {tree : Tree}
    (h : parseExpressionText input = .ok tree) : Shaped tree ∧ tree.isExpr = true := by
  obtain ⟨_, hread⟩ := RoundTrip.parseExpressionText_eq_ok_iff.1 h
  have hexpr := (expression_sound hread).1
  exact ⟨hexpr.shaped, hexpr.isExpr⟩

end PackageManifest.Proofs.Grammar
