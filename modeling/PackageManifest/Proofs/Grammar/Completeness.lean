import PackageManifest.Proofs.Grammar.Soundness

/-!
# What belongs to the grammar is read

A tree that the grammar describes is read from its tokens, whatever follows them that cannot
extend it. As in the other direction each lemma assumes this of the operands inside
(`CompleteFor`), and `operand_complete` closes the loop.
-/

namespace PackageManifest.Proofs.Grammar

open Source

def startsOperand : TokenKind → Bool
  | .ident | .stringLit | .numberLit | .trueKw | .falseKw | .nilKw | .dot | .lBracket | .lParen
  | .lBrace | .operator => true
  | _ => false

theorem isTrivia_of_startsOperand {kind : TokenKind} (h : startsOperand kind = true) :
    kind.isTrivia = false := by
  cases kind <;> first | rfl | cases h

theorem isClosing_of_startsOperand {kind : TokenKind} (h : startsOperand kind = true) :
    kind.isClosing = false := by
  cases kind <;> first | rfl | cases h

/-- The tokens of a tree start an operand and cannot be taken for a label. -/
structure Headed (t : Tree) : Prop where
  starts : startsOperand (headKind t.tokens) = true
  unlabeled : ∀ rest, nextKind rest ≠ .colon →
    label (t.tokens ++ rest) = ([], t.tokens ++ rest)

/-- `operand` reads every tree with `P` up to tokens that do not extend it. -/
structure CompleteFor (operand : Parser Tree) (P : Tree → Prop) : Prop where
  reads : ∀ {t : Tree} {rest : List Token}, P t → extendsOperand rest = false →
    plain (operand (t.tokens ++ rest)) = .ok (t, rest)
  headed : ∀ {t : Tree}, P t → Headed t

theorem headKind_append {ts rest : List Token} (h : ts ≠ []) :
    headKind (ts ++ rest) = headKind ts := by
  cases ts with
  | nil => exact absurd rfl h
  | cons t ts => rfl

theorem afterTrivia_of_headKind {ts : List Token} (h : (headKind ts).isTrivia = false) :
    afterTrivia ts = ts := by
  cases ts with
  | nil => rfl
  | cons t ts => exact afterTrivia_cons h ts

theorem trivia_of_headKind {ts : List Token} (h : (headKind ts).isTrivia = false) :
    trivia ts = [] := by
  cases ts with
  | nil => rfl
  | cons t ts => exact trivia_cons h ts

namespace Headed

variable {t : Tree}

theorem ne_nil (h : Headed t) : t.tokens ≠ [] := by
  intro hnil
  have := h.starts
  rw [hnil] at this
  cases this

theorem starts_append (h : Headed t) (rest : List Token) :
    startsOperand (headKind (t.tokens ++ rest)) = true := by
  rw [headKind_append h.ne_nil]
  exact h.starts

theorem afterTrivia_append (h : Headed t) (rest : List Token) :
    afterTrivia (t.tokens ++ rest) = t.tokens ++ rest :=
  afterTrivia_of_headKind (isTrivia_of_startsOperand (h.starts_append rest))

theorem trivia_append (h : Headed t) (rest : List Token) : trivia (t.tokens ++ rest) = [] :=
  trivia_of_headKind (isTrivia_of_startsOperand (h.starts_append rest))

end Headed

/-! ## Blocks -/

theorem balanced_complete {due : List TokenKind} {ts : List Token} (h : Closes due ts)
    (rest : List Token) : plain? (balanced due (ts ++ rest)) = some (ts, rest) := by
  induction h with
  | last hdue =>
    rw [List.cons_append, plain?_balanced, hdue]
    rfl
  | more hdue _ ih =>
    rw [List.cons_append, plain?_balanced, hdue]
    simp only [ih, Option.map_some]

theorem closure_complete {t : Tree} (h : Block t) (rest : List Token) :
    plain (closure (t.tokens ++ rest)) = .ok (t, rest) := by
  cases h with
  | intro hkind hcloses =>
    rw [plain_closure, Tree.tokens_node, tokensList_leaves, balanced_complete hcloses]

theorem Block.headKind {t : Tree} (h : Block t) (rest : List Token) :
    Source.headKind (t.tokens ++ rest) = .lBrace := by
  cases h with
  | intro hkind _ => exact hkind

section Rules

variable {operand : Parser Tree} {P : Tree → Prop}

/-! ## Operators -/

theorem isTrivia_of_joins {op : Token} {due : Nat} (h : Joins op due) : op.isTrivia = false := by
  rcases h with h | ⟨h, _⟩ <;> exact isTrivia_of_kind h rfl

theorem joins_zero {op : Token} (h : Joins op 0) : op.kind = .operator := by
  rcases h with h | ⟨_, h⟩
  · exact h
  · exact absurd h (Nat.lt_irrefl 0)

theorem extendsOperand_of_extendsSequence {ts : List Token} (h : extendsSequence ts = false) :
    extendsOperand ts = false := by
  rw [extendsSequence, Bool.or_eq_false_iff] at h
  exact h.1

theorem nextKind_of_extendsSequence {ts : List Token} (h : extendsSequence ts = false) :
    nextKind ts ≠ .operator := by
  rw [extendsSequence, Bool.or_eq_false_iff] at h
  simpa using h.2

theorem Operations.extendsOperand {due : Nat} {trees : List Tree} {rest : List Token}
    (h : Operations P due trees) (hrest : Grammar.extendsOperand rest = false) :
    Grammar.extendsOperand (Tree.tokensList trees ++ rest) = false := by
  cases h with
  | done => exact hrest
  | step hbefore hjoins hbehind ht hmore =>
    unfold Grammar.extendsOperand
    simp only [List.append_assoc, Tree.tokensList_append, tokensList_leaves, Tree.tokensList_cons,
      List.cons_append, Tree.tokens_token, List.nil_append]
    rw [nextKind_append hbefore, nextKind_cons (isTrivia_of_joins hjoins)]
    rcases hjoins with hkind | ⟨hkind, _⟩ <;> rw [hkind]

theorem operations_complete (hop : CompleteFor operand P) {due : Nat} {trees : List Tree}
    {rest : List Token} (h : Operations P due trees) (hrest : extendsSequence rest = false) :
    plain (operations operand due (Tree.tokensList trees ++ rest)) = .ok (trees, rest) := by
  induction h with
  | done =>
    rw [Tree.tokensList_nil, List.nil_append]
    cases hafter : afterTrivia rest with
    | nil => rw [plain_operations_nil operand hafter, if_pos rfl]
    | cons op after =>
      have hnext : op.kind ≠ .operator := by
        have := nextKind_of_extendsSequence hrest
        rwa [nextKind, hafter] at this
      rw [plain_operations_cons operand hafter, if_neg (fun h => hnext (joins_zero h)), if_pos rfl]
  | @step due before behind op t more hbefore hjoins hbehind ht hmore ih =>
    have hhead := hop.headed ht
    have hop' := isTrivia_of_joins hjoins
    have hts : Tree.tokensList (leaves before ++ .token op :: leaves behind ++ t :: more) ++ rest =
        before ++ op :: (behind ++ (t.tokens ++ (Tree.tokensList more ++ rest))) := by
      simp
    have hafter : afterTrivia (before ++
        op :: (behind ++ (t.tokens ++ (Tree.tokensList more ++ rest)))) =
        op :: (behind ++ (t.tokens ++ (Tree.tokensList more ++ rest))) := by
      rw [afterTrivia_append hbefore, afterTrivia_cons hop']
    have hread : plain (operand (t.tokens ++ (Tree.tokensList more ++ rest))) =
        .ok (t, Tree.tokensList more ++ rest) :=
      hop.reads ht (hmore.extendsOperand (extendsOperand_of_extendsSequence hrest))
    rw [hts, plain_operations_cons operand hafter, if_pos hjoins, afterTrivia_append hbehind,
      hhead.afterTrivia_append, hread]
    simp only [Except.bind, ih, Except.map]
    rw [trivia_append hbefore, trivia_cons hop', trivia_append hbehind, hhead.trivia_append]
    simp

theorem Operations.nextKind {trees : List Tree} (h : Operations P 0 trees) (hne : trees ≠ [])
    (rest : List Token) : Source.nextKind (Tree.tokensList trees ++ rest) = .operator := by
  cases h with
  | done => exact absurd rfl hne
  | step hbefore hjoins hbehind ht hmore =>
    simp only [List.append_assoc, Tree.tokensList_append, tokensList_leaves, Tree.tokensList_cons,
      List.cons_append, Tree.tokens_token, List.nil_append]
    rw [nextKind_append hbefore, nextKind_cons (isTrivia_of_joins hjoins), joins_zero hjoins]

theorem sequence_complete (hop : CompleteFor operand P) {t : Tree} {rest : List Token}
    (h : Sequence P t) (hrest : extendsSequence rest = false) :
    plain (sequence operand (t.tokens ++ rest)) = .ok (t, rest) := by
  rw [plain_sequence]
  cases h with
  | single ht =>
    rw [hop.reads ht (extendsOperand_of_extendsSequence hrest)]
    simp [Except.bind, nextKind_of_extendsSequence hrest]
  | joined hfirst hne hops =>
    rename_i first trees
    have hmid := hops.extendsOperand (extendsOperand_of_extendsSequence hrest)
    rw [Tree.tokens_node, Tree.tokensList_cons, List.append_assoc, hop.reads hfirst hmid]
    simp only [Except.bind, hops.nextKind hne, if_true, operations_complete hop hops hrest,
      Except.map]

theorem Sequence.headed (hop : CompleteFor operand P) {t : Tree} (h : Sequence P t) :
    Headed t := by
  cases h with
  | single ht => exact hop.headed ht
  | joined hfirst hne hops =>
    rename_i first trees
    have hhead := hop.headed hfirst
    refine ⟨hhead.starts_append _, fun rest _ => ?_⟩
    rw [Tree.tokens_node, Tree.tokensList_cons, List.append_assoc]
    refine hhead.unlabeled _ ?_
    rw [hops.nextKind hne]
    decide

/-! ## Lists -/

theorem start_complete {kind : NodeKind} {label : List Token} {t : Tree} {rest : List Token}
    (h : Label kind label) (ht : Headed t) (hrest : nextKind rest ≠ .colon) :
    start kind (label ++ (t.tokens ++ rest)) = (label, t.tokens ++ rest) := by
  cases h with
  | none =>
    rw [List.nil_append, start]
    split
    · exact ht.unlabeled rest hrest
    · rfl
  | @some name colon before behind hkind hname hbefore hcolon hbehind =>
    have hcolon' : colon.isTrivia = false := isTrivia_of_kind hcolon rfl
    have hts : name :: before ++ colon :: behind ++ (t.tokens ++ rest) =
        name :: (before ++ colon :: (behind ++ (t.tokens ++ rest))) := by
      simp
    have hexpect : expect? .colon
        (afterTrivia (before ++ colon :: (behind ++ (t.tokens ++ rest)))) =
        some (colon, behind ++ (t.tokens ++ rest)) := by
      rw [afterTrivia_append hbefore, afterTrivia_cons hcolon', expect?_cons hcolon]
    rw [start, if_pos hkind, hts, Source.label, if_pos hname, hexpect]
    simp only
    rw [trivia_append hbefore, trivia_cons hcolon', trivia_append hbehind, ht.trivia_append,
      afterTrivia_append hbehind, ht.afterTrivia_append]
    simp

/-- Whether the tokens ahead end an element: what follows an element that has no comma. -/
def endsElement (ts : List Token) : Prop := (nextKind ts).isClosing = true

theorem extendsSequence_of_endsElement {ts : List Token} (h : endsElement ts) :
    extendsSequence ts = false := by
  unfold endsElement at h
  rw [extendsSequence, extendsOperand]
  cases hkind : nextKind ts <;> rw [hkind] at h <;> first | rfl | cases h

theorem nextKind_ne_of_endsElement {ts : List Token} {kind : TokenKind} (h : endsElement ts)
    (hkind : kind.isClosing = false) : nextKind ts ≠ kind := by
  intro heq
  rw [endsElement, heq, hkind] at h
  cases h

theorem element_bare_complete (hop : CompleteFor operand P) {kind : NodeKind} {e : Tree}
    {rest : List Token} (h : Element P kind false e) (hrest : endsElement rest) :
    plain (element kind (sequence operand) (e.tokens ++ rest)) = .ok (⟨e, false⟩, rest) := by
  cases h with
  | @bare label value hlabel hvalue =>
    have hcolon : nextKind rest ≠ .colon := nextKind_ne_of_endsElement hrest rfl
    have hcomma : nextKind rest ≠ .comma := nextKind_ne_of_endsElement hrest rfl
    have hts : (Source.Tree.node kind (leaves label ++ [value])).tokens ++ rest =
        label ++ (value.tokens ++ rest) := by
      simp
    rw [hts, plain_element, start_complete hlabel (hvalue.headed hop) hcolon]
    simp only [sequence_complete hop hvalue (extendsSequence_of_endsElement hrest), Except.map,
      expect?_afterTrivia_eq_none hcomma]

theorem element_separated_complete (hop : CompleteFor operand P) {kind : NodeKind} {e : Tree}
    (h : Element P kind true e) (rest : List Token) :
    plain (element kind (sequence operand) (e.tokens ++ rest)) = .ok (⟨e, true⟩, rest) := by
  cases h with
  | @separated label before value comma hlabel hvalue hbefore hcomma =>
    have hcomma' : comma.isTrivia = false := isTrivia_of_kind hcomma rfl
    have hnext : nextKind (before ++ comma :: rest) = .comma := by
      rw [nextKind_append hbefore, nextKind_cons hcomma', hcomma]
    have hext : extendsSequence (before ++ comma :: rest) = false := by
      simp [extendsSequence, extendsOperand, hnext]
    have hexpect : expect? .comma (afterTrivia (before ++ comma :: rest)) = some (comma, rest) := by
      rw [afterTrivia_append hbefore, afterTrivia_cons hcomma', expect?_cons hcomma]
    have hcolon : nextKind (before ++ comma :: rest) ≠ .colon := by
      rw [hnext]
      decide
    have hts : (Source.Tree.node kind
        (leaves label ++ value :: leaves before ++ [.token comma])).tokens ++ rest =
          label ++ (value.tokens ++ (before ++ comma :: rest)) := by
      simp
    rw [hts, plain_element, start_complete hlabel (hvalue.headed hop) hcolon]
    simp only [sequence_complete hop hvalue hext, Except.map, hexpect]
    rw [trivia_append hbefore, trivia_cons hcomma', List.append_nil]

theorem Label.headKind {kind : NodeKind} {label ts : List Token} (h : Label kind label)
    (hts : startsOperand (headKind ts) = true) :
    (Source.headKind (label ++ ts)).isTrivia = false ∧
      (Source.headKind (label ++ ts)).isClosing = false := by
  cases h with
  | none => exact ⟨isTrivia_of_startsOperand hts, isClosing_of_startsOperand hts⟩
  | @some name colon before behind hkind hname =>
    change name.kind.isTrivia = false ∧ name.kind.isClosing = false
    cases hk : name.kind <;> rw [hk] at hname <;> first | exact ⟨rfl, rfl⟩ | cases hname

theorem Element.headKind (hop : CompleteFor operand P) {kind : NodeKind} {separated : Bool}
    {e : Tree} (h : Element P kind separated e) (rest : List Token) :
    (Source.headKind (e.tokens ++ rest)).isTrivia = false ∧
      (Source.headKind (e.tokens ++ rest)).isClosing = false := by
  cases h with
  | @bare label value hlabel hvalue =>
    have := hlabel.headKind ((hvalue.headed hop).starts_append rest)
    simpa using this
  | @separated label before value comma hlabel hvalue =>
    have := hlabel.headKind ((hvalue.headed hop).starts_append (before ++ comma :: rest))
    simpa using this

theorem elements_complete (hop : CompleteFor operand P) {kind : NodeKind} {close : TokenKind}
    (hclose : close.isClosing = true) {trees : List Tree} (h : Elements P kind close trees)
    (rest : List Token) :
    plain (elements close (element kind (sequence operand)) (Tree.tokensList trees ++ rest)) =
      .ok (trees, rest) := by
  have closing {t : Token} (ht : t.kind = close) : t.isTrivia = false := by
    refine isTrivia_of_kind ht ?_
    cases close <;> first | rfl | cases hclose
  -- No element starts with the closing delimiter.
  have opens {separated : Bool} {e : Tree} {before : List Token} (hbefore : AllTrivia before)
      (he : Element P kind separated e) (ts : List Token) :
      afterTrivia (before ++ (e.tokens ++ ts)) = e.tokens ++ ts ∧
        trivia (before ++ (e.tokens ++ ts)) = before ∧
        expect? close (e.tokens ++ ts) = none := by
    obtain ⟨htrivia, hclosing⟩ := he.headKind hop ts
    refine ⟨?_, ?_, expect?_eq_none_of_headKind fun heq => ?_⟩
    · rw [afterTrivia_append hbefore, afterTrivia_of_headKind htrivia]
    · rw [trivia_append hbefore, trivia_of_headKind htrivia, List.append_nil]
    · rw [heq, hclose] at hclosing
      cases hclosing
  induction h with
  | @close before t hbefore ht =>
    rw [plain_elements]
    simp only [Tree.tokensList_append, tokensList_leaves, Tree.tokensList_cons, Tree.tokens_token,
      Tree.tokensList_nil, List.append_nil, List.append_assoc, List.cons_append, List.nil_append]
    rw [afterTrivia_append hbefore, afterTrivia_cons (closing ht), expect?_cons ht,
      trivia_append hbefore, trivia_cons (closing ht), List.append_nil]
  | @last before behind e t hbefore he hbehind ht =>
    have hafter : afterTrivia (behind ++ t :: rest) = t :: rest := by
      rw [afterTrivia_append hbehind, afterTrivia_cons (closing ht)]
    have hends : endsElement (behind ++ t :: rest) := by
      rw [endsElement, nextKind, hafter, headKind, ht, hclose]
    have hts : Tree.tokensList (leaves before ++ e :: leaves behind ++ [.token t]) ++ rest =
        before ++ (e.tokens ++ (behind ++ t :: rest)) := by
      simp
    obtain ⟨h1, h2, h3⟩ := opens hbefore he (behind ++ t :: rest)
    rw [hts, plain_elements, h1, h3]
    simp only [element_bare_complete hop he hends, Except.bind, Bool.false_eq_true, if_false]
    rw [hafter, expect?_cons ht, h2, trivia_append hbehind, trivia_cons (closing ht),
      List.append_nil]
  | @next before e more hbefore he _ ih =>
    have hts : Tree.tokensList (leaves before ++ e :: more) ++ rest =
        before ++ (e.tokens ++ (Tree.tokensList more ++ rest)) := by
      simp
    obtain ⟨h1, h2, h3⟩ := opens hbefore he (Tree.tokensList more ++ rest)
    rw [hts, plain_elements, h1, h3]
    simp only [element_separated_complete hop he, Except.bind, if_true, ih, Except.map]
    rw [h2]

theorem delimited_complete (hop : CompleteFor operand P) {kind item : NodeKind}
    {opening close : TokenKind} (hclose : close.isClosing = true) {t : Tree}
    (h : Delimited P kind item opening close t) (rest : List Token) :
    plain (delimited kind close (element item (sequence operand)) (t.tokens ++ rest)) =
      .ok (t, rest) := by
  cases h with
  | intro hkind helements =>
    rw [Tree.tokens_node, Tree.tokensList_cons, Tree.tokens_token, List.cons_append,
      List.cons_append, List.nil_append, plain_delimited,
      elements_complete hop hclose helements]
    rfl

theorem Delimited.headKind {kind item : NodeKind} {opening close : TokenKind} {t : Tree}
    (h : Delimited P kind item opening close t) (rest : List Token) :
    Source.headKind (t.tokens ++ rest) = opening := by
  cases h with
  | intro hkind _ => exact hkind

/-! ## Operands -/

theorem leaf_complete {t : Token} {kind : NodeKind} (h : leafKind? t.kind = some kind)
    (rest : List Token) :
    plain (primary operand (t :: rest)) = .ok (.node kind [.token t], rest) := by
  rw [plain_primary]
  cases hk : t.kind <;> rw [hk] at h <;> cases h <;> rfl

theorem primary_complete (hop : CompleteFor operand P) {t : Tree} {rest : List Token}
    (h : Primary P t) (hrest : t.isNode .prefixExpr = true → extendsOperand rest = false) :
    plain (primary operand (t.tokens ++ rest)) = .ok (t, rest) := by
  cases h with
  | leaf hkind => exact leaf_complete hkind rest
  | @member dot name hdot hname =>
    change plain (primary operand (dot :: name :: rest)) = _
    rw [plain_primary, hdot]
    simp [hname]
  | array harray =>
    have hread := delimited_complete hop rfl harray rest
    have hkind := harray.headKind rest
    cases hts : t.tokens ++ rest with
    | nil =>
      rw [hts] at hkind
      cases hkind
    | cons u us =>
      rw [hts] at hread hkind
      rw [plain_primary, show u.kind = .lBracket from hkind]
      exact hread
  | @tuple list hlist =>
    have hread := delimited_complete hop rfl hlist rest
    have hkind := hlist.headKind rest
    have hlist' : (Source.Tree.node .tupleExpr [list]).tokens ++ rest =
        list.tokens ++ rest := by simp
    rw [hlist']
    cases hts : list.tokens ++ rest with
    | nil =>
      rw [hts] at hkind
      cases hkind
    | cons u us =>
      rw [hts] at hread hkind
      rw [plain_primary, show u.kind = .lParen from hkind]
      simp only [arguments, hread, Except.map]
  | block hblock =>
    have hread := closure_complete hblock rest
    have hkind := hblock.headKind rest
    cases hts : t.tokens ++ rest with
    | nil =>
      rw [hts] at hkind
      cases hkind
    | cons u us =>
      rw [hts] at hread hkind
      rw [plain_primary, show u.kind = .lBrace from hkind]
      exact hread
  | @prefixed op value hkind hvalue =>
    have hhead := isTrivia_of_startsOperand ((hop.headed hvalue).starts_append rest)
    have hts : (Source.Tree.node .prefixExpr [.token op, value]).tokens ++ rest =
        op :: (value.tokens ++ rest) := by
      simp
    rw [hts, plain_primary, hkind]
    simp only [hhead, Bool.false_eq_true, if_false, hop.reads hvalue (hrest (by simp)), Except.map]

theorem label_eq_nil_of_headKind {ts : List Token} (h : (headKind ts).isNameLike = false) :
    label ts = ([], ts) := by
  cases ts with
  | nil => rfl
  | cons t ts =>
    unfold label
    exact if_neg (by simpa [headKind] using h)

theorem Primary.headed {t : Tree} (h : Primary P t) : Headed t := by
  have fixed {u : Tree} {kind : TokenKind} (hkind : ∀ rest, headKind (u.tokens ++ rest) = kind)
      (hstarts : startsOperand kind = true) (hname : kind.isNameLike = false) : Headed u := by
    refine ⟨?_, fun rest _ => label_eq_nil_of_headKind ?_⟩
    · have := hkind []
      rw [List.append_nil] at this
      rw [this, hstarts]
    · rw [hkind rest, hname]
  cases h with
  | @leaf u kind hkind =>
    refine ⟨?_, fun rest hrest => ?_⟩
    · change startsOperand u.kind = true
      cases hu : u.kind <;> rw [hu] at hkind <;> first | rfl | cases hkind
    · change label (u :: rest) = ([], u :: rest)
      rw [label, expect?_afterTrivia_eq_none hrest]
      simp
  | member hdot _ => exact fixed (fun _ => hdot) rfl rfl
  | array harray => exact fixed harray.headKind rfl rfl
  | @tuple list hlist =>
    have hhead (rest : List Token) :
        headKind ((Source.Tree.node .tupleExpr [list]).tokens ++ rest) = .lParen := by
      have := hlist.headKind rest
      simpa using this
    exact fixed hhead rfl rfl
  | block hblock => exact fixed hblock.headKind rfl rfl
  | prefixed hop _ => exact fixed (fun _ => hop) rfl rfl

def startsApplication : TokenKind → Bool
  | .dot | .lParen | .lBracket | .lBrace => true
  | _ => false

section Ahead

variable {before ts : List Token} {kind : TokenKind}

theorem afterTrivia_of_starts (hbefore : AllTrivia before) (hts : headKind ts = kind)
    (hkind : startsApplication kind = true) : afterTrivia (before ++ ts) = ts := by
  rw [afterTrivia_append hbefore, afterTrivia_of_headKind]
  rw [hts]
  cases kind <;> first | rfl | cases hkind

theorem trivia_of_starts (hbefore : AllTrivia before) (hts : headKind ts = kind)
    (hkind : startsApplication kind = true) : trivia (before ++ ts) = before := by
  rw [trivia_append hbefore, trivia_of_headKind, List.append_nil]
  rw [hts]
  cases kind <;> first | rfl | cases hkind

theorem nextKind_of_starts (hbefore : AllTrivia before) (hts : headKind ts = kind)
    (hkind : startsApplication kind = true) : nextKind (before ++ ts) = kind := by
  rw [nextKind, afterTrivia_of_starts hbefore hts hkind, hts]

theorem newlineAhead_of_starts (hbefore : AllTrivia before)
    (hline : before.any Token.breaksLine = false) (hts : headKind ts = kind)
    (hkind : startsApplication kind = true) : newlineAhead (before ++ ts) = false := by
  rw [newlineAhead, trivia_of_starts hbefore hts hkind, hline]

end Ahead

theorem call_complete (hop : CompleteFor operand P) {base list : Tree} {before rest : List Token}
    (hlist : Arguments P .lParen .rParen list)
    (hrest : nextKind rest = .lBrace → newlineAhead rest = true) :
    plain (call operand (base :: leaves before) (list.tokens ++ rest)) =
      .ok (.node .callExpr (base :: leaves before ++ [list]), rest) := by
  have hnone : (decide (nextKind rest = .lBrace) && !newlineAhead rest) = false := by
    by_cases hnext : nextKind rest = .lBrace
    · simp [hrest hnext]
    · simp [hnext]
  rw [plain_call, arguments, delimited_complete hop rfl hlist]
  simp only [Except.bind, hnone, Bool.false_eq_true, if_false]

theorem callWithBlock_complete (hop : CompleteFor operand P) {base list block : Tree}
    {before between : List Token} (hlist : Arguments P .lParen .rParen list)
    (hbetween : AllTrivia between) (hline : between.any Token.breaksLine = false)
    (hblock : Block block) (rest : List Token) :
    plain (call operand (base :: leaves before)
        (list.tokens ++ (between ++ (block.tokens ++ rest)))) =
      .ok (.node .callExpr (base :: leaves before ++ list :: leaves between ++ [block]), rest) := by
  have hhead := hblock.headKind rest
  rw [plain_call, arguments, delimited_complete hop rfl hlist]
  simp only [Except.bind, nextKind_of_starts hbetween hhead rfl,
    newlineAhead_of_starts hbetween hline hhead rfl, decide_true, Bool.not_false, Bool.and_true,
    if_true]
  rw [afterTrivia_of_starts hbetween hhead rfl, trivia_of_starts hbetween hhead rfl,
    closure_complete hblock]
  rfl

/-- An application is read from the tokens that it adds to those of its base. -/
theorem applied_complete (hop : CompleteFor operand P) {base t : Tree}
    (h : Application P base t) :
    ∃ ext, t.tokens = base.tokens ++ ext ∧ ∀ rest,
      startsApplication (nextKind (ext ++ rest)) = true ∧
        (takesBlock base = true → nextKind (ext ++ rest) ≠ .lBrace) ∧
        (Settled t rest → applied? operand base (ext ++ rest) = some (.ok (t, rest))) := by
  cases h with
  | @member before dot name hbefore hdot hname =>
    refine ⟨before ++ [dot, name], by simp, fun rest => ?_⟩
    have hhead : headKind (dot :: name :: rest) = .dot := hdot
    have hext : before ++ [dot, name] ++ rest = before ++ dot :: name :: rest := by simp
    rw [hext, nextKind_of_starts hbefore hhead rfl]
    refine ⟨rfl, by simp, fun hrest => ?_⟩
    simp only [applied?, nextKind_of_starts hbefore hhead rfl]
    rw [afterTrivia_of_starts hbefore hhead rfl, trivia_of_starts hbefore hhead rfl, plain_member,
      if_pos hname]
  | @call before list hbefore hline hlist =>
    refine ⟨before ++ list.tokens, by simp, fun rest => ?_⟩
    have hhead := hlist.headKind rest
    rw [List.append_assoc, nextKind_of_starts hbefore hhead rfl]
    refine ⟨rfl, by simp, fun hrest => ?_⟩
    have htakes : takesBlock (.node .callExpr (base :: leaves before ++ [list])) = true := by
      rw [takesBlock_node, hlist.isNode]
      rfl
    simp only [applied?, nextKind_of_starts hbefore hhead rfl,
      newlineAhead_of_starts hbefore hline hhead rfl, Bool.false_eq_true, if_false]
    rw [afterTrivia_of_starts hbefore hhead rfl, trivia_of_starts hbefore hhead rfl,
      call_complete hop hlist (hrest.2 htakes)]
  | @callWithBlock before between list block hbefore hline hlist hbetween hline' hblock =>
    refine ⟨before ++ (list.tokens ++ (between ++ block.tokens)), by simp, fun rest => ?_⟩
    have hhead := hlist.headKind (between ++ (block.tokens ++ rest))
    have hext : before ++ (list.tokens ++ (between ++ block.tokens)) ++ rest =
        before ++ (list.tokens ++ (between ++ (block.tokens ++ rest))) := by
      simp
    rw [hext, nextKind_of_starts hbefore hhead rfl]
    refine ⟨rfl, by simp, fun hrest => ?_⟩
    simp only [applied?, nextKind_of_starts hbefore hhead rfl,
      newlineAhead_of_starts hbefore hline hhead rfl, Bool.false_eq_true, if_false]
    rw [afterTrivia_of_starts hbefore hhead rfl, trivia_of_starts hbefore hhead rfl,
      callWithBlock_complete hop hlist hbetween hline' hblock]
  | @subscript before list hbefore hline hlist =>
    refine ⟨before ++ list.tokens, by simp, fun rest => ?_⟩
    have hhead := hlist.headKind rest
    rw [List.append_assoc, nextKind_of_starts hbefore hhead rfl]
    refine ⟨rfl, by simp, fun hrest => ?_⟩
    simp only [applied?, nextKind_of_starts hbefore hhead rfl,
      newlineAhead_of_starts hbefore hline hhead rfl, Bool.false_eq_true, if_false]
    rw [afterTrivia_of_starts hbefore hhead rfl, trivia_of_starts hbefore hhead rfl, arguments,
      delimited_complete hop rfl hlist]
    rfl
  | @block before block htakes hbefore hline hblock =>
    refine ⟨before ++ block.tokens, by simp, fun rest => ?_⟩
    have hhead := hblock.headKind rest
    rw [List.append_assoc, nextKind_of_starts hbefore hhead rfl]
    refine ⟨rfl, by simp [htakes], fun _ => ?_⟩
    simp only [applied?, nextKind_of_starts hbefore hhead rfl,
      newlineAhead_of_starts hbefore hline hhead rfl, Bool.false_eq_true, if_false]
    rw [afterTrivia_of_starts hbefore hhead rfl, trivia_of_starts hbefore hhead rfl,
      closure_complete hblock]
    rfl

theorem settled_of_extendsOperand {t : Tree} {rest : List Token}
    (h : extendsOperand rest = false) : Settled t rest := by
  refine ⟨fun _ => h, fun _ hnext => ?_⟩
  rw [extendsOperand, hnext] at h
  simpa using h

theorem applied?_eq_none {base : Tree} {ts : List Token} (h : extendsOperand ts = false) :
    applied? operand base ts = none := by
  unfold extendsOperand at h
  unfold applied?
  cases hnext : nextKind ts <;> rw [hnext] at h <;> simp_all

/-- The rule for a first part and the rule for what is applied to it, together, read a chain up to
tokens that none of its own rules would have taken. -/
theorem chain_complete (hop : CompleteFor operand P) {t : Tree} (h : Chain P t)
    {rest : List Token} (hrest : Settled t rest) :
    ((plain (primary operand (t.tokens ++ rest))).bind fun base =>
      plain (applications operand base.1 base.2)) = plain (applications operand t rest) := by
  induction h generalizing rest with
  | primary hprimary =>
    rw [primary_complete hop hprimary hrest.1]
    rfl
  | @apply base t _ hsign happ ih =>
    obtain ⟨ext, htokens, happlied⟩ := applied_complete hop happ
    obtain ⟨_, hbrace, hread⟩ := happlied rest
    have hbase : Settled base (ext ++ rest) := by
      refine ⟨fun h => ?_, fun htakes hnext => absurd hnext (hbrace htakes)⟩
      rw [hsign] at h
      cases h
    rw [htokens, List.append_assoc, ih hbase, plain_applications, hread hrest]
    rfl

theorem Chain.headed (hop : CompleteFor operand P) {t : Tree} (h : Chain P t) : Headed t := by
  induction h with
  | primary hprimary => exact hprimary.headed
  | @apply base t _ hsign happ ih =>
    obtain ⟨ext, htokens, happlied⟩ := applied_complete hop happ
    refine ⟨?_, fun rest hrest => ?_⟩
    · rw [htokens]
      exact ih.starts_append ext
    · rw [htokens, List.append_assoc]
      refine ih.unlabeled _ fun hcolon => ?_
      have hstarts := (happlied rest).1
      rw [hcolon] at hstarts
      cases hstarts

/-- Every operand is read back, within the same nesting budget. -/
theorem operand_complete (budget : Nat) :
    CompleteFor (Source.operand budget) (Operand budget) := by
  induction budget with
  | zero => exact ⟨fun h => h.elim, fun h => h.elim⟩
  | succ budget ih =>
    refine ⟨fun {t rest} h hrest => ?_, fun h => Chain.headed ih h⟩
    rw [plain_operand, chain_complete ih h (settled_of_extendsOperand hrest), plain_applications,
      applied?_eq_none hrest]

end Rules

theorem expression_complete {t : Tree} {rest : List Token} (h : Expression t)
    (hrest : extendsSequence rest = false) :
    plain (expression (t.tokens ++ rest)) = .ok (t, rest) :=
  sequence_complete (operand_complete maxNesting) h hrest

theorem Operand.headed {budget : Nat} {t : Tree} (h : Operand budget t) : Headed t :=
  (operand_complete budget).headed h

theorem Expression.headed {t : Tree} (h : Expression t) : Headed t :=
  Sequence.headed (operand_complete maxNesting) h

end PackageManifest.Proofs.Grammar
