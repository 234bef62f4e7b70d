import PackageManifest.Proofs.Grammar.Rules
import PackageManifest.Proofs.Trees

/-!
# What is read belongs to the grammar

Every rule of the expression grammar answers a tree that the grammar describes, and the tokens of
that tree are the ones it has consumed. Each lemma assumes this of the operands inside
(`SoundFor`), and `operand_sound` closes the loop by induction on the nesting budget.
-/

namespace PackageManifest.Proofs.Grammar

open Source

/-- What `operand` reads satisfies `P`, is what it consumes and cannot be extended. -/
def SoundFor (operand : Parser Tree) (P : Tree → Prop) : Prop :=
  ∀ {ts rest : List Token} {t : Tree}, plain (operand ts) = .ok (t, rest) →
    P t ∧ ts = t.tokens ++ rest ∧ extendsOperand rest = false

/-! ## Blocks -/

theorem balanced_sound {due : List TokenKind} {ts inside rest : List Token}
    (h : plain? (balanced due ts) = some (inside, rest)) :
    Closes due inside ∧ ts = inside ++ rest := by
  induction ts generalizing due inside with
  | nil => simp [balanced] at h
  | cons t ts ih =>
    rw [plain?_balanced] at h
    split at h
    · cases h
    · rename_i hdue
      cases h
      exact ⟨.last hdue, rfl⟩
    · rename_i hdue
      obtain ⟨⟨more, rest'⟩, hmore, heq⟩ := Option.map_eq_some_iff.1 h
      cases heq
      obtain ⟨hcloses, rfl⟩ := ih hmore
      exact ⟨.more hdue hcloses, rfl⟩

theorem closure_sound {ts rest : List Token} {t : Tree} (hkind : headKind ts = .lBrace)
    (h : plain (closure ts) = .ok (t, rest)) : Block t ∧ ts = t.tokens ++ rest := by
  rw [plain_closure] at h
  split at h
  · cases h
  · rename_i r hr
    cases h
    obtain ⟨inside, rest⟩ := r
    obtain ⟨hcloses, rfl⟩ := balanced_sound hr
    cases inside with
    | nil => cases hcloses
    | cons u us => exact ⟨.intro hkind hcloses, by simp⟩

section Rules

variable {operand : Parser Tree} {P : Tree → Prop}

/-! ## Operators -/

theorem operations_sound (hop : SoundFor operand P) {due : Nat} {ts rest : List Token}
    {trees : List Tree} (hext : extendsOperand ts = false)
    (h : plain (operations operand due ts) = .ok (trees, rest)) :
    Operations P due trees ∧ ts = Tree.tokensList trees ++ rest ∧
      extendsSequence rest = false := by
  induction hn : ts.length using Nat.strongRecOn generalizing ts due trees with
  | ind n ih =>
    cases hts : afterTrivia ts with
    | nil =>
      rw [plain_operations_nil operand hts] at h
      split at h
      · rename_i hdue
        cases h
        subst hdue
        exact ⟨.done, rfl, by simp [extendsSequence, hext, nextKind, hts, headKind]⟩
      · cases h
    | cons op after =>
      rw [plain_operations_cons operand hts] at h
      split at h
      · rename_i hjoins
        obtain ⟨⟨t, mid⟩, ht, hmap⟩ := bind_eq_ok.1 h
        obtain ⟨⟨more, rest'⟩, hmore, heq⟩ := map_eq_ok.1 hmap
        cases heq
        obtain ⟨hP, hafter, hmid⟩ := hop ht
        have hwhole : ts = trivia ts ++ op :: (trivia after ++ (t.tokens ++ mid)) := by
          rw [← hafter, trivia_append_afterTrivia, ← hts, trivia_append_afterTrivia]
        have hlt : mid.length < n := by
          have := congrArg List.length hwhole
          simp only [List.length_append, List.length_cons] at this
          omega
        obtain ⟨hops, hrest, hend⟩ := ih mid.length hlt hmid hmore rfl
        refine ⟨.step (allTrivia_trivia ts) hjoins (allTrivia_trivia after) hP hops, ?_, hend⟩
        rw [hrest] at hwhole
        simpa using hwhole
      · rename_i hjoins
        split at h
        · rename_i hdue
          cases h
          subst hdue
          have hkind : op.kind ≠ .operator := fun heq => hjoins (.inl heq)
          exact ⟨.done, rfl, by simp [extendsSequence, hext, nextKind, hts, headKind, hkind]⟩
        · cases h

theorem sequence_sound (hop : SoundFor operand P) {ts rest : List Token} {t : Tree}
    (h : plain (sequence operand ts) = .ok (t, rest)) :
    Sequence P t ∧ ts = t.tokens ++ rest ∧ extendsSequence rest = false := by
  rw [plain_sequence] at h
  obtain ⟨⟨first, mid⟩, hfirst, hmore⟩ := bind_eq_ok.1 h
  obtain ⟨hP, hts, hmid⟩ := hop hfirst
  simp only at hmore
  split at hmore
  · rename_i hnext
    obtain ⟨⟨more, rest'⟩, hops, heq⟩ := map_eq_ok.1 hmore
    cases heq
    obtain ⟨hops, hrest, hend⟩ := operations_sound hop hmid hops
    refine ⟨.joined hP ?_ hops, by simp [hts, hrest], hend⟩
    rintro rfl
    rw [hrest, Tree.tokensList_nil, List.nil_append] at hnext
    simp [extendsSequence, hnext] at hend
  · rename_i hnext
    cases hmore
    exact ⟨.single hP, hts, by simp [extendsSequence, hmid, hnext]⟩

/-! ## Lists -/

theorem label_sound (ts : List Token) :
    Label .argument (label ts).1 ∧ ts = (label ts).1 ++ (label ts).2 := by
  unfold label
  split
  · exact ⟨.none, rfl⟩
  · rename_i name rest
    split
    · rename_i hname
      split
      · rename_i colon after hcolon
        obtain ⟨hrest, hkind⟩ := expect?_eq_some hcolon
        refine ⟨.some rfl hname (allTrivia_trivia rest) hkind (allTrivia_trivia after), ?_⟩
        have hwhole : rest = trivia rest ++ colon :: (trivia after ++ afterTrivia after) := by
          rw [trivia_append_afterTrivia, ← hrest, trivia_append_afterTrivia]
        simpa using hwhole
      · exact ⟨.none, rfl⟩
    · exact ⟨.none, rfl⟩

theorem start_sound (kind : NodeKind) (ts : List Token) :
    Label kind (start kind ts).1 ∧ ts = (start kind ts).1 ++ (start kind ts).2 := by
  unfold start
  split
  · rename_i hkind
    rw [hkind]
    exact label_sound ts
  · exact ⟨.none, rfl⟩

theorem element_sound (hop : SoundFor operand P) {kind : NodeKind} {ts rest : List Token}
    {e : Source.Element}
    (h : plain (element kind (sequence operand) ts) = .ok (e, rest)) :
    Element P kind e.separated e.tree ∧ ts = e.tree.tokens ++ rest ∧
      (e.separated = false → extendsSequence rest = false ∧ nextKind rest ≠ .comma) := by
  rw [plain_element] at h
  obtain ⟨hlabel, hts⟩ := start_sound kind ts
  obtain ⟨⟨value, mid⟩, hvalue, heq⟩ := map_eq_ok.1 h
  obtain ⟨hseq, hstart, hmid⟩ := sequence_sound hop hvalue
  rw [hstart] at hts
  simp only at heq
  split at heq
  · rename_i comma after hcomma
    cases heq
    obtain ⟨hafter, hkind⟩ := expect?_eq_some hcomma
    refine ⟨.separated hlabel hseq (allTrivia_trivia mid) hkind, ?_, by simp⟩
    rw [eq_of_afterTrivia hafter] at hts
    simpa using hts
  · rename_i hcomma
    cases heq
    refine ⟨.bare hlabel hseq, by simpa using hts, fun _ => ⟨hmid, ?_⟩⟩
    exact nextKind_of_expect?_eq_none (by decide) hcomma

theorem elements_sound (hop : SoundFor operand P) {kind : NodeKind} {close : TokenKind}
    {ts rest : List Token} {trees : List Tree}
    (h : plain (elements close (element kind (sequence operand)) ts) = .ok (trees, rest)) :
    Elements P kind close trees ∧ ts = Tree.tokensList trees ++ rest := by
  induction hn : ts.length using Nat.strongRecOn generalizing ts trees with
  | ind n ih =>
    rw [plain_elements] at h
    split at h
    · rename_i t after hclose
      cases h
      obtain ⟨hafter, hkind⟩ := expect?_eq_some hclose
      refine ⟨.close (allTrivia_trivia ts) hkind, ?_⟩
      simpa using eq_of_afterTrivia hafter
    · obtain ⟨⟨⟨tree, separated⟩, mid⟩, hfirst, hmore⟩ := bind_eq_ok.1 h
      obtain ⟨helement, hafter, _⟩ := element_sound hop hfirst
      have hwhole := eq_of_afterTrivia hafter
      simp only at helement hwhole hmore
      split at hmore
      · rename_i hsep
        obtain ⟨⟨more, rest'⟩, hread, heq⟩ := map_eq_ok.1 hmore
        cases heq
        subst hsep
        have hlt : mid.length < n := by
          have hmid : tree.tokens ≠ [] := by
            cases helement with
            | separated => simp
          have := congrArg List.length hwhole
          have := List.length_pos_iff.2 hmid
          simp only [List.length_append] at *
          omega
        obtain ⟨hmores, hrest⟩ := ih mid.length hlt hread rfl
        refine ⟨.next (allTrivia_trivia ts) helement hmores, ?_⟩
        rw [hrest] at hwhole
        simpa using hwhole
      · rename_i hsep
        rw [Bool.not_eq_true] at hsep
        subst hsep
        split at hmore
        · rename_i t after hclose
          cases hmore
          obtain ⟨hmid, hkind⟩ := expect?_eq_some hclose
          refine ⟨.last (allTrivia_trivia ts) helement (allTrivia_trivia mid) hkind, ?_⟩
          rw [eq_of_afterTrivia hmid] at hwhole
          simpa using hwhole
        · cases hmore

theorem delimited_sound (hop : SoundFor operand P) {kind item : NodeKind} {close : TokenKind}
    {t : Token} {ts rest : List Token} {tree : Tree}
    (h : plain (delimited kind close (element item (sequence operand)) (t :: ts)) =
      .ok (tree, rest)) :
    Delimited P kind item t.kind close tree ∧ t :: ts = tree.tokens ++ rest := by
  rw [plain_delimited] at h
  obtain ⟨⟨trees, rest'⟩, htrees, heq⟩ := map_eq_ok.1 h
  cases heq
  obtain ⟨helements, rfl⟩ := elements_sound hop htrees
  exact ⟨.intro rfl helements, by simp⟩

theorem arguments_sound (hop : SoundFor operand P) {opening close : TokenKind}
    {ts rest : List Token} {tree : Tree} (hkind : headKind ts = opening)
    (hne : opening ≠ .eof) (h : plain (arguments close operand ts) = .ok (tree, rest)) :
    Arguments P opening close tree ∧ ts = tree.tokens ++ rest := by
  cases ts with
  | nil => exact absurd hkind.symm hne
  | cons t ts =>
    rw [← hkind]
    exact delimited_sound hop h

/-! ## Operands -/

theorem takesBlock_node (kind : NodeKind) (children : List Tree) (last : Tree) :
    takesBlock (.node kind (children ++ [last])) =
      (kind == .callExpr && last.isNode .argumentList) := by
  simp [takesBlock]

theorem takesBlock_eq_false {t : Tree} (h : t.isNode .callExpr = false) : takesBlock t = false := by
  simp [takesBlock, h]

theorem Delimited.isNode {kind item : NodeKind} {opening close : TokenKind} {t : Tree}
    (h : Delimited P kind item opening close t) : t.isNode kind = true := by
  cases h
  simp

theorem Block.isNode {t : Tree} (h : Block t) : t.isNode .closureExpr = true := by
  cases h
  simp

theorem primary_sound (hop : SoundFor operand P) {ts rest : List Token} {t : Tree}
    (h : plain (primary operand ts) = .ok (t, rest)) :
    Primary P t ∧ ts = t.tokens ++ rest ∧
      (t.isNode .prefixExpr = true → extendsOperand rest = false) := by
  cases ts with
  | nil => cases h
  | cons u us =>
    rw [plain_primary] at h
    split at h
    · rename_i hkind
      split at h
      · cases h
      · split at h
        · rename_i hname
          cases h
          exact ⟨.member hkind hname, rfl, by simp⟩
        · cases h
    · rename_i hkind
      obtain ⟨harray, hts⟩ := delimited_sound hop h
      rw [hkind] at harray
      refine ⟨.array harray, hts, fun hsign => ?_⟩
      rw [Tree.eq_node_of_isNode harray.isNode] at hsign
      simp at hsign
    · rename_i hkind
      obtain ⟨⟨list, rest'⟩, hlist, heq⟩ := map_eq_ok.1 h
      cases heq
      have hhead : headKind (u :: us) = .lParen := hkind
      obtain ⟨hlist, hts⟩ := arguments_sound hop hhead (by decide) hlist
      exact ⟨.tuple hlist, by simpa using hts, by simp⟩
    · rename_i hkind
      have hhead : headKind (u :: us) = .lBrace := hkind
      obtain ⟨hblock, hts⟩ := closure_sound hhead h
      refine ⟨.block hblock, hts, fun hsign => ?_⟩
      rw [Tree.eq_node_of_isNode hblock.isNode] at hsign
      simp at hsign
    · rename_i hkind
      split at h
      · cases h
      · obtain ⟨⟨value, rest'⟩, hvalue, heq⟩ := map_eq_ok.1 h
        cases heq
        obtain ⟨hP, rfl, hrest⟩ := hop hvalue
        exact ⟨.prefixed hkind hP, by simp, fun _ => hrest⟩
    · split at h
      · rename_i leaf hleaf
        cases h
        refine ⟨.leaf hleaf, rfl, fun hsign => ?_⟩
        simp only [Tree.isNode_node, beq_iff_eq] at hsign
        subst hsign
        cases hkind : u.kind <;> rw [hkind] at hleaf <;> simp [leafKind?] at hleaf
      · cases h

theorem Primary.isNode_callExpr {t : Tree} (h : Primary P t) : t.isNode .callExpr = false := by
  cases h with
  | leaf hkind =>
    rename_i u kind
    cases hu : u.kind <;> rw [hu] at hkind <;> simp [leafKind?] at hkind <;> subst hkind <;> rfl
  | member => rfl
  | array harray =>
    rw [Tree.eq_node_of_isNode harray.isNode]
    rfl
  | tuple => rfl
  | block hblock =>
    rw [Tree.eq_node_of_isNode hblock.isNode]
    rfl
  | prefixed => rfl

/-- What must not stand behind `base`, because the rule that read `base` would have taken it. -/
def Settled (base : Tree) (ts : List Token) : Prop :=
  (base.isNode .prefixExpr = true → extendsOperand ts = false) ∧
    (takesBlock base = true → nextKind ts = .lBrace → newlineAhead ts = true)

theorem member_sound {base t : Tree} {before ts rest : List Token} (hbefore : AllTrivia before)
    (hkind : headKind ts = .dot)
    (h : plain (member (base :: leaves before) ts) = .ok (t, rest)) :
    Application P base t ∧ base.tokens ++ before ++ ts = t.tokens ++ rest ∧ Settled t rest := by
  match ts with
  | [] => cases h
  | [_] => cases h
  | dot :: name :: ts =>
    rw [plain_member] at h
    split at h
    · rename_i hname
      cases h
      refine ⟨.member hbefore hkind hname, by simp, by simp, ?_⟩
      rw [takesBlock_eq_false (by simp)]
      simp
    · cases h

theorem call_sound (hop : SoundFor operand P) {base t : Tree} {before ts rest : List Token}
    (hbefore : AllTrivia before) (hline : before.any Token.breaksLine = false)
    (hkind : headKind ts = .lParen)
    (h : plain (call operand (base :: leaves before) ts) = .ok (t, rest)) :
    Application P base t ∧ base.tokens ++ before ++ ts = t.tokens ++ rest ∧ Settled t rest := by
  rw [plain_call] at h
  obtain ⟨⟨list, mid⟩, hlist, hmore⟩ := bind_eq_ok.1 h
  obtain ⟨hargs, hts⟩ := arguments_sound hop hkind (by decide) hlist
  simp only at hmore
  split at hmore
  · rename_i hbrace
    simp only [Bool.and_eq_true, decide_eq_true_eq, Bool.not_eq_true'] at hbrace
    obtain ⟨⟨tree, rest'⟩, hread, heq⟩ := map_eq_ok.1 hmore
    cases heq
    obtain ⟨hblock, hmid⟩ := closure_sound hbrace.1 hread
    refine ⟨.callWithBlock hbefore hline hargs (allTrivia_trivia mid) hbrace.2 hblock, ?_,
      by simp, ?_⟩
    · rw [eq_of_afterTrivia hmid] at hts
      simp [hts]
    · rw [takesBlock_node, Tree.eq_node_of_isNode hblock.isNode]
      simp
  · rename_i hbrace
    cases hmore
    refine ⟨.call hbefore hline hargs, by simp [hts], by simp, fun _ hnext => ?_⟩
    simpa [hnext] using hbrace

/-- One application, read behind a settled base. -/
theorem applied_sound (hop : SoundFor operand P) {base t : Tree} {ts rest : List Token}
    (hbase : Settled base ts) (h : applied? operand base ts = some (.ok (t, rest))) :
    base.isNode .prefixExpr = false ∧ Application P base t ∧
      base.tokens ++ ts = t.tokens ++ rest ∧ Settled t rest := by
  have hsign (hext : extendsOperand ts = true) : base.isNode .prefixExpr = false := by
    rw [Bool.eq_false_iff]
    intro hne
    rw [hbase.1 hne] at hext
    cases hext
  have hwhole : base.tokens ++ ts = base.tokens ++ trivia ts ++ afterTrivia ts := by
    rw [List.append_assoc, trivia_append_afterTrivia]
  have hbefore := allTrivia_trivia ts
  rw [hwhole]
  unfold applied? at h
  simp only at h
  split at h
  · rename_i hnext
    obtain ⟨happ, hts, hsettled⟩ := member_sound (P := P) hbefore hnext (Option.some.inj h)
    exact ⟨hsign (by simp [extendsOperand, hnext]), happ, hts, hsettled⟩
  · rename_i hnext
    split at h
    · cases h
    · rename_i hline
      rw [Bool.not_eq_true] at hline
      obtain ⟨happ, hts, hsettled⟩ := call_sound hop hbefore hline hnext (Option.some.inj h)
      exact ⟨hsign (by simp [extendsOperand, hnext, hline]), happ, hts, hsettled⟩
  · rename_i hnext
    split at h
    · cases h
    · rename_i hline
      rw [Bool.not_eq_true] at hline
      obtain ⟨⟨list, rest'⟩, hread, heq⟩ := map_eq_ok.1 (Option.some.inj h)
      cases heq
      obtain ⟨hlist, hts⟩ := arguments_sound hop hnext (by decide) hread
      refine ⟨hsign (by simp [extendsOperand, hnext, hline]), .subscript hbefore hline hlist,
        by simp [hts], by simp, ?_⟩
      rw [takesBlock_eq_false (by simp)]
      simp
  · rename_i hnext
    split at h
    · cases h
    · rename_i hline
      rw [Bool.not_eq_true] at hline
      obtain ⟨⟨block, rest'⟩, hread, heq⟩ := map_eq_ok.1 (Option.some.inj h)
      cases heq
      obtain ⟨hblock, hts⟩ := closure_sound hnext hread
      have htakes : takesBlock base = false := by
        rw [Bool.eq_false_iff]
        intro hne
        rw [hbase.2 hne hnext] at hline
        cases hline
      refine ⟨hsign (by simp [extendsOperand, hnext, hline]),
        .block htakes hbefore hline hblock, by simp [hts], by simp, ?_⟩
      rw [List.cons_append, ← List.cons_append, takesBlock_node,
        Tree.eq_node_of_isNode hblock.isNode]
      simp
  · cases h

theorem Application.length_lt {base t : Tree} (h : Application P base t) :
    base.tokens.length < t.tokens.length := by
  cases h with
  | member => simp
  | call _ _ hlist | subscript _ _ hlist =>
    cases hlist
    simp only [Tree.tokens_node, Tree.tokensList_append, Tree.tokensList_cons, List.length_append,
      Tree.tokens_token, List.length_cons]
    omega
  | callWithBlock _ _ hlist =>
    cases hlist
    simp only [Tree.tokens_node, Tree.tokensList_append, Tree.tokensList_cons, List.length_append,
      Tree.tokens_token, List.length_cons]
    omega
  | block _ _ _ hblock =>
    cases hblock
    simp only [Tree.tokens_node, Tree.tokensList_append, Tree.tokensList_cons, List.length_append,
      tokensList_leaves, List.length_cons, List.length_nil, Tree.tokensList_nil]
    omega

theorem extendsOperand_of_applied? {base : Tree} {ts : List Token}
    (h : applied? operand base ts = none) : extendsOperand ts = false := by
  unfold applied? at h
  unfold extendsOperand
  cases hnext : nextKind ts <;> rw [hnext] at h <;> simp_all

theorem applications_sound (hop : SoundFor operand P) {base t : Tree} {ts rest : List Token}
    (hchain : Chain P base) (hbase : Settled base ts)
    (h : plain (applications operand base ts) = .ok (t, rest)) :
    Chain P t ∧ base.tokens ++ ts = t.tokens ++ rest ∧ extendsOperand rest = false := by
  induction hn : ts.length using Nat.strongRecOn generalizing ts base with
  | ind n ih =>
    rw [plain_applications] at h
    split at h
    · rename_i hnone
      cases h
      exact ⟨hchain, rfl, extendsOperand_of_applied? hnone⟩
    · rename_i result hsome
      obtain ⟨⟨next, mid⟩, rfl, hmore⟩ := bind_eq_ok.1 h
      obtain ⟨hsign, happ, hts, hsettled⟩ := applied_sound hop hbase hsome
      have hlt : mid.length < n := by
        have := happ.length_lt
        have := congrArg List.length hts
        simp only [List.length_append] at this
        omega
      obtain ⟨hall, hmid, hend⟩ :=
        ih mid.length hlt (.apply hchain hsign happ) hsettled hmore rfl
      exact ⟨hall, hts.trans hmid, hend⟩

theorem operand_sound (budget : Nat) : SoundFor (Source.operand budget) (Operand budget) := by
  induction budget with
  | zero =>
    intro ts rest t h
    cases h
  | succ budget ih =>
    intro ts rest t h
    rw [plain_operand] at h
    obtain ⟨⟨base, mid⟩, hbase, hmore⟩ := bind_eq_ok.1 h
    obtain ⟨hprimary, hts, hsign⟩ := primary_sound ih hbase
    have hsettled : Settled base mid := by
      refine ⟨hsign, fun htakes => ?_⟩
      rw [takesBlock_eq_false hprimary.isNode_callExpr] at htakes
      cases htakes
    obtain ⟨hchain, hmid, hend⟩ := applications_sound ih (.primary hprimary) hsettled hmore
    exact ⟨hchain, hts.trans hmid, hend⟩

end Rules

theorem expression_sound {ts rest : List Token} {t : Tree}
    (h : plain (expression ts) = .ok (t, rest)) :
    Expression t ∧ ts = t.tokens ++ rest ∧ extendsSequence rest = false :=
  sequence_sound (operand_sound maxNesting) h

end PackageManifest.Proofs.Grammar
