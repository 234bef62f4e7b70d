import PackageManifest.Proofs.Grammar.Rules

/-!
# Delimiters match

The delimiters of an expression match, so what only counts or matches delimiters passes over it.
-/

namespace PackageManifest.Proofs.Grammar

open Source

/-- The closing delimiters due behind some tokens, before which `due` are due. -/
def dueAfterAll (due : List TokenKind) : List Token → Option (List TokenKind)
  | [] => some due
  | t :: ts => (dueAfter due t.kind).bind fun inner => dueAfterAll inner ts

theorem dueAfterAll_append (due : List TokenKind) (ts us : List Token) :
    dueAfterAll due (ts ++ us) = (dueAfterAll due ts).bind fun inner => dueAfterAll inner us := by
  induction ts generalizing due with
  | nil => rfl
  | cons t ts ih =>
    rw [List.cons_append, dueAfterAll, dueAfterAll]
    cases dueAfter due t.kind with
    | none => rfl
    | some inner => exact ih inner

/-- Delimiters that are due further out do not matter. -/
theorem dueAfter_append {due inner : List TokenKind} {kind : TokenKind}
    (h : dueAfter due kind = some inner) (outer : List TokenKind) :
    dueAfter (due ++ outer) kind = some (inner ++ outer) := by
  unfold dueAfter at h ⊢
  split at h
  · cases h
    rfl
  · split at h
    · split at h
      · cases h
      · split at h
        · cases h
          simp_all
        · cases h
    · cases h
      simp_all

/-- Every delimiter among the tokens has its counterpart there. -/
def Matched (ts : List Token) : Prop := dueAfterAll [] ts = some []

theorem matched_nil : Matched [] := rfl

theorem Matched.append {ts us : List Token} (hts : Matched ts) (hus : Matched us) :
    Matched (ts ++ us) := by
  rw [Matched, dueAfterAll_append, hts, Option.bind_some]
  exact hus

theorem Matched.around {ts : List Token} (h : Matched ts) (due : List TokenKind) :
    dueAfterAll due ts = some due := by
  have frame {ts : List Token} {inner outer rest : List TokenKind}
      (h : dueAfterAll inner ts = some rest) :
      dueAfterAll (inner ++ outer) ts = some (rest ++ outer) := by
    induction ts generalizing inner with
    | nil =>
      cases h
      rfl
    | cons t ts ih =>
      rw [dueAfterAll] at h ⊢
      obtain ⟨next, hnext, hmore⟩ := Option.bind_eq_some_iff.1 h
      rw [dueAfter_append hnext, Option.bind_some]
      exact ih hmore
  exact frame h

def isPlainKind (kind : TokenKind) : Bool := !kind.isOpening && !kind.isClosing

theorem dueAfter_plain {kind : TokenKind} (h : isPlainKind kind = true) (due : List TokenKind) :
    dueAfter due kind = some due := by
  cases kind <;> first | rfl | cases h

theorem matched_single {t : Token} (h : isPlainKind t.kind = true) : Matched [t] := by
  rw [Matched, dueAfterAll, dueAfter_plain h]
  rfl

theorem matched_trivia {ts : List Token} (h : AllTrivia ts) : Matched ts := by
  induction ts with
  | nil => rfl
  | cons t ts ih =>
    have ht : t.kind.isTrivia = true := h t (by simp)
    have hplain : isPlainKind t.kind = true := by
      cases hk : t.kind <;> rw [hk] at ht <;> first | rfl | cases ht
    exact (matched_single hplain).append (ih h.tail)

theorem dueAfter_closing {opening close : TokenKind} (h : opening.closing? = some close) :
    dueAfter [close] close = some [] := by
  cases opening <;> cases h <;> rfl

theorem Matched.enclosed {opener closer : Token} {ts : List Token} (h : Matched ts)
    (hclose : opener.kind.closing? = some closer.kind) : Matched (opener :: (ts ++ [closer])) := by
  have hopen : dueAfter [] opener.kind = some [closer.kind] := by
    rw [dueAfter, hclose]
  rw [Matched, dueAfterAll, hopen, Option.bind_some, dueAfterAll_append, h.around,
    Option.bind_some, dueAfterAll, dueAfter_closing hclose]
  rfl

theorem Closes.dueAfterAll {due : List TokenKind} {ts : List Token} (h : Closes due ts) :
    Grammar.dueAfterAll due ts = some [] := by
  induction h with
  | last hdue =>
    rw [Grammar.dueAfterAll, hdue]
    rfl
  | more hdue _ ih =>
    rw [Grammar.dueAfterAll, hdue]
    exact ih

theorem Block.matched {t : Tree} (h : Block t) : Matched t.tokens := by
  cases h with
  | intro _ hcloses =>
    rw [Tree.tokens_node, tokensList_leaves]
    exact hcloses.dueAfterAll

section Rules

variable {P : Tree → Prop}

theorem isPlainKind_of_joins {op : Token} {due : Nat} (h : Joins op due) :
    isPlainKind op.kind = true := by
  rcases h with h | ⟨h, _⟩ <;> rw [h] <;> rfl

theorem isPlainKind_of_isNameLike {kind : TokenKind} (h : kind.isNameLike = true) :
    isPlainKind kind = true := by
  cases kind <;> first | rfl | cases h

theorem isPlainKind_of_isMemberName {t : Token} (h : isMemberName t = true) :
    isPlainKind t.kind = true := by
  rw [isMemberName, Bool.or_eq_true, beq_iff_eq] at h
  rcases h with h | h
  · exact isPlainKind_of_isNameLike h
  · rw [h]
    rfl

theorem isPlainKind_of_leafKind? {kind : TokenKind} {node : NodeKind}
    (h : leafKind? kind = some node) : isPlainKind kind = true := by
  cases kind <;> first | rfl | cases h

theorem Operations.matched (hP : ∀ t, P t → Matched t.tokens) {due : Nat} {trees : List Tree}
    (h : Operations P due trees) : Matched (Tree.tokensList trees) := by
  induction h with
  | done => exact matched_nil
  | @step due before behind op t more hbefore hjoins hbehind ht _ ih =>
    have hts : Tree.tokensList (leaves before ++ .token op :: leaves behind ++ t :: more) =
        before ++ ([op] ++ (behind ++ (t.tokens ++ Tree.tokensList more))) := by
      simp
    rw [hts]
    have hop := matched_single (isPlainKind_of_joins hjoins)
    exact (matched_trivia hbefore).append
      (hop.append ((matched_trivia hbehind).append ((hP t ht).append ih)))

theorem Sequence.matched (hP : ∀ t, P t → Matched t.tokens) {t : Tree} (h : Sequence P t) :
    Matched t.tokens := by
  cases h with
  | single ht => exact hP _ ht
  | joined hfirst _ hops => exact (hP _ hfirst).append (hops.matched hP)

theorem Label.matched {kind : NodeKind} {ts : List Token} (h : Label kind ts) : Matched ts := by
  cases h with
  | none => exact matched_nil
  | @some name colon before behind _ hname hbefore hcolon hbehind =>
    have hname := matched_single (isPlainKind_of_isNameLike hname)
    have hcolon : Matched [colon] := matched_single (by rw [hcolon]; rfl)
    have hts : name :: before ++ colon :: behind = [name] ++ (before ++ ([colon] ++ behind)) := by
      simp
    rw [hts]
    exact hname.append
      ((matched_trivia hbefore).append (hcolon.append (matched_trivia hbehind)))

theorem Element.matched (hP : ∀ t, P t → Matched t.tokens) {kind : NodeKind} {separated : Bool}
    {e : Tree} (h : Element P kind separated e) : Matched e.tokens := by
  cases h with
  | @bare label value hlabel hvalue =>
    have hts : (Source.Tree.node kind (leaves label ++ [value])).tokens =
        label ++ value.tokens := by simp
    rw [hts]
    exact hlabel.matched.append (hvalue.matched hP)
  | @separated label before value comma hlabel hvalue hbefore hcomma =>
    have hcomma : Matched [comma] := matched_single (by rw [hcomma]; rfl)
    have hts : (Source.Tree.node kind
        (leaves label ++ value :: leaves before ++ [.token comma])).tokens =
          label ++ (value.tokens ++ (before ++ [comma])) := by
      simp
    rw [hts]
    exact hlabel.matched.append
      ((hvalue.matched hP).append ((matched_trivia hbefore).append hcomma))

theorem Elements.matched (hP : ∀ t, P t → Matched t.tokens) {kind : NodeKind} {close : TokenKind}
    {trees : List Tree} (h : Elements P kind close trees) :
    ∃ ts closer, Tree.tokensList trees = ts ++ [closer] ∧ Matched ts ∧ closer.kind = close := by
  induction h with
  | @close before t hbefore ht => exact ⟨before, t, by simp, matched_trivia hbefore, ht⟩
  | @last before behind e t hbefore he hbehind ht =>
    refine ⟨before ++ (e.tokens ++ behind), t, by simp, ?_, ht⟩
    exact (matched_trivia hbefore).append ((he.matched hP).append (matched_trivia hbehind))
  | @next before e more hbefore he _ ih =>
    obtain ⟨ts, closer, htokens, hmatched, hcloser⟩ := ih
    refine ⟨before ++ (e.tokens ++ ts), closer, by simp [htokens], ?_, hcloser⟩
    exact (matched_trivia hbefore).append ((he.matched hP).append hmatched)

theorem Delimited.matched (hP : ∀ t, P t → Matched t.tokens) {kind item : NodeKind}
    {opening close : TokenKind} (hclose : opening.closing? = some close) {t : Tree}
    (h : Delimited P kind item opening close t) : Matched t.tokens := by
  cases h with
  | @intro opener children hkind helements =>
    obtain ⟨ts, closer, htokens, hmatched, hcloser⟩ := helements.matched hP
    rw [Tree.tokens_node, Tree.tokensList_cons, htokens]
    exact hmatched.enclosed (by rw [hkind, hcloser, hclose])

theorem Primary.matched (hP : ∀ t, P t → Matched t.tokens) {t : Tree} (h : Primary P t) :
    Matched t.tokens := by
  cases h with
  | leaf hkind => exact matched_single (isPlainKind_of_leafKind? hkind)
  | @member dot name hdot hname =>
    have hdot : Matched [dot] := matched_single (by rw [hdot]; rfl)
    exact hdot.append (matched_single (isPlainKind_of_isMemberName hname))
  | array harray => exact harray.matched hP rfl
  | @tuple list hlist =>
    have hts : (Source.Tree.node .tupleExpr [list]).tokens = list.tokens := by simp
    rw [hts]
    exact hlist.matched hP rfl
  | block hblock => exact hblock.matched
  | @prefixed op value hop hvalue =>
    have hop : Matched [op] := matched_single (by rw [hop]; rfl)
    have hts : (Source.Tree.node .prefixExpr [.token op, value]).tokens =
        [op] ++ value.tokens := by simp
    rw [hts]
    exact hop.append (hP _ hvalue)

theorem Application.matched (hP : ∀ t, P t → Matched t.tokens) {base t : Tree}
    (hbase : Matched base.tokens) (h : Application P base t) : Matched t.tokens := by
  cases h with
  | @member before dot name hbefore hdot hname =>
    have hdot : Matched [dot] := matched_single (by rw [hdot]; rfl)
    have hname := matched_single (isPlainKind_of_isMemberName hname)
    have hts : (Source.Tree.node .memberAccessExpr
        (base :: leaves before ++ [.token dot, .token name])).tokens =
        base.tokens ++ (before ++ ([dot] ++ [name])) := by
      simp
    rw [hts]
    exact hbase.append ((matched_trivia hbefore).append (hdot.append hname))
  | @call before list hbefore _ hlist =>
    have hts : (Source.Tree.node .callExpr (base :: leaves before ++ [list])).tokens =
        base.tokens ++ (before ++ list.tokens) := by
      simp
    rw [hts]
    exact hbase.append ((matched_trivia hbefore).append (hlist.matched hP rfl))
  | @callWithBlock before between list block hbefore _ hlist hbetween _ hblock =>
    have hts : (Source.Tree.node .callExpr
        (base :: leaves before ++ list :: leaves between ++ [block])).tokens =
        base.tokens ++ (before ++ (list.tokens ++ (between ++ block.tokens))) := by
      simp
    rw [hts]
    exact hbase.append ((matched_trivia hbefore).append
      ((hlist.matched hP rfl).append ((matched_trivia hbetween).append hblock.matched)))
  | @subscript before list hbefore _ hlist =>
    have hts : (Source.Tree.node .subscriptExpr (base :: leaves before ++ [list])).tokens =
        base.tokens ++ (before ++ list.tokens) := by
      simp
    rw [hts]
    exact hbase.append ((matched_trivia hbefore).append (hlist.matched hP rfl))
  | @block before block _ hbefore _ hblock =>
    have hts : (Source.Tree.node .callExpr (base :: leaves before ++ [block])).tokens =
        base.tokens ++ (before ++ block.tokens) := by
      simp
    rw [hts]
    exact hbase.append ((matched_trivia hbefore).append hblock.matched)

theorem Chain.matched (hP : ∀ t, P t → Matched t.tokens) {t : Tree} (h : Chain P t) :
    Matched t.tokens := by
  induction h with
  | primary hprimary => exact hprimary.matched hP
  | apply _ _ happ ih => exact happ.matched hP ih

end Rules

theorem Operand.matched {budget : Nat} {t : Tree} (h : Operand budget t) : Matched t.tokens := by
  induction budget generalizing t with
  | zero => exact h.elim
  | succ budget ih => exact Chain.matched (fun _ => ih) h

theorem Sequence.operand_matched {budget : Nat} {t : Tree} (h : Sequence (Operand budget) t) :
    Matched t.tokens := Sequence.matched (fun _ => Operand.matched) h

theorem Expression.matched {t : Tree} (h : Expression t) : Matched t.tokens := h.operand_matched

/-! ## What passes over matching delimiters -/

/-- Inside of delimiters, a block goes on behind tokens whose delimiters match. -/
theorem balanced_matched {m : List Token} (h : Matched m) {due : List TokenKind} (hdue : due ≠ [])
    (ts : List Token) :
    plain? (balanced due (m ++ ts)) = (plain? (balanced due ts)).map fun r => (m ++ r.1, r.2) := by
  have pass {m : List Token} {inner rest : List TokenKind} (h : dueAfterAll inner m = some rest) :
      plain? (balanced (inner ++ due) (m ++ ts)) =
        (plain? (balanced (rest ++ due) ts)).map fun r => (m ++ r.1, r.2) := by
    induction m generalizing inner with
    | nil =>
      cases h
      simp
    | cons t m ih =>
      unfold dueAfterAll at h
      obtain ⟨next, hnext, hmore⟩ := Option.bind_eq_some_iff.1 h
      rw [List.cons_append, plain?_balanced, dueAfter_append hnext due]
      cases hcat : next ++ due with
      | nil => exact absurd (List.append_eq_nil_iff.1 hcat).2 hdue
      | cons close inner' =>
        simp only
        rw [← hcat, ih hmore, Option.map_map]
        rfl
  exact pass h

end PackageManifest.Proofs.Grammar
