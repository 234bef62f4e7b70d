import PackageManifest.Proofs.Grammar.Soundness

/-!
# How an expression ends

The last token of an expression is a name, a literal or a closing delimiter.
-/

namespace PackageManifest.Proofs.Grammar

open Source

def endsOperand (kind : TokenKind) : Bool :=
  kind.isNameLike || kind == .stringLit || kind == .numberLit || kind.isClosing

def Ends (ts : List Token) : Prop := ∃ before u, ts = before ++ [u] ∧ endsOperand u.kind = true

theorem Ends.append {ts : List Token} (h : Ends ts) (before : List Token) :
    Ends (before ++ ts) := by
  obtain ⟨inner, u, rfl, hu⟩ := h
  exact ⟨before ++ inner, u, by rw [List.append_assoc], hu⟩

theorem Ends.single {u : Token} (h : endsOperand u.kind = true) : Ends [u] := ⟨[], u, rfl, h⟩

theorem endsOperand_of_isClosing {kind : TokenKind} (h : kind.isClosing = true) :
    endsOperand kind = true := by
  simp [endsOperand, h]

theorem endsOperand_of_isMemberName {u : Token} (h : isMemberName u = true) :
    endsOperand u.kind = true := by
  rw [isMemberName, Bool.or_eq_true] at h
  rcases h with h | h <;> simp [endsOperand, h]

theorem Closes.ends {due : List TokenKind} {ts : List Token} (h : Closes due ts)
    (hdue : due ≠ []) : Ends ts := by
  induction h with
  | last hlast =>
    rename_i due t
    refine .single (endsOperand_of_isClosing ?_)
    unfold dueAfter at hlast
    split at hlast
    · cases hlast
    · split at hlast
      · assumption
      · exact absurd (Option.some.inj hlast) hdue
  | more _ _ ih => exact (ih (by simp)).append [_]

theorem Block.ends {t : Tree} (h : Block t) : Ends t.tokens := by
  cases h with
  | intro hbrace hcloses =>
    rw [Tree.tokens_node, tokensList_leaves]
    cases hcloses with
    | last hlast =>
      rw [hbrace] at hlast
      cases hlast
    | more _ hmore => exact (hmore.ends (by simp)).append [_]

section Rules

variable {P : Tree → Prop}

theorem Elements.ends {kind : NodeKind} {close : TokenKind} {trees : List Tree}
    (h : Elements P kind close trees) (hclose : close.isClosing = true) :
    Ends (Tree.tokensList trees) := by
  have single {t : Token} (ht : t.kind = close) : Ends [t] :=
    .single (endsOperand_of_isClosing (ht ▸ hclose))
  induction h with
  | close _ ht =>
    rw [Tree.tokensList_append]
    exact (single ht).append _
  | last _ _ _ ht =>
    rw [Tree.tokensList_append]
    exact (single ht).append _
  | next _ _ _ ih =>
    rw [Tree.tokensList_append, Tree.tokensList_cons]
    exact (ih.append _).append _

theorem Delimited.ends {kind item : NodeKind} {opening close : TokenKind} {t : Tree}
    (h : Delimited P kind item opening close t) (hclose : close.isClosing = true) :
    Ends t.tokens := by
  cases h with
  | intro _ helements => exact (helements.ends hclose).append [_]

theorem Primary.ends (hP : ∀ t, P t → Ends t.tokens) {t : Tree} (h : Primary P t) :
    Ends t.tokens := by
  cases h with
  | leaf hkind =>
    rename_i u kind
    refine .single ?_
    cases hu : u.kind <;> rw [hu] at hkind <;> first | rfl | cases hkind
  | member _ hname => exact (Ends.single (endsOperand_of_isMemberName hname)).append [_]
  | array harray => exact harray.ends rfl
  | tuple hlist =>
    rw [Tree.tokens_node, Tree.tokensList_cons, Tree.tokensList_nil, List.append_nil]
    exact hlist.ends rfl
  | block hblock => exact hblock.ends
  | prefixed _ hvalue =>
    rw [Tree.tokens_node, Tree.tokensList_cons, Tree.tokensList_cons, Tree.tokensList_nil,
      List.append_nil]
    exact (hP _ hvalue).append _

theorem Application.ends {base t : Tree} (h : Application P base t) : Ends t.tokens := by
  have last {children : List Tree} {u : Tree} (hu : Ends u.tokens) :
      Ends (Tree.tokensList (children ++ [u])) := by
    rw [Tree.tokensList_append, Tree.tokensList_cons, Tree.tokensList_nil, List.append_nil]
    exact hu.append _
  cases h with
  | member _ _ hname =>
    rw [Tree.tokens_node, Tree.tokensList_append]
    exact ((Ends.single (endsOperand_of_isMemberName hname)).append [_]).append _
  | call _ _ hlist => exact last (hlist.ends rfl)
  | callWithBlock _ _ _ _ _ hblock => exact last hblock.ends
  | subscript _ _ hlist => exact last (hlist.ends rfl)
  | block _ _ _ hblock => exact last hblock.ends

theorem Chain.ends (hP : ∀ t, P t → Ends t.tokens) {t : Tree} (h : Chain P t) : Ends t.tokens := by
  cases h with
  | primary hprimary => exact hprimary.ends hP
  | apply _ _ happ => exact happ.ends

theorem Operations.ends (hP : ∀ t, P t → Ends t.tokens) {due : Nat} {trees : List Tree}
    (h : Operations P due trees) (hne : trees ≠ []) : Ends (Tree.tokensList trees) := by
  induction h with
  | done => exact absurd rfl hne
  | step _ _ _ ht _ ih =>
    rename_i more _ _ _ _
    rw [Tree.tokensList_append, Tree.tokensList_cons]
    refine Ends.append ?_ _
    cases more with
    | nil =>
      rw [Tree.tokensList_nil, List.append_nil]
      exact hP _ ht
    | cons u more => exact (ih (by simp)).append _

theorem Sequence.ends (hP : ∀ t, P t → Ends t.tokens) {t : Tree} (h : Sequence P t) :
    Ends t.tokens := by
  cases h with
  | single ht => exact hP _ ht
  | joined _ hne hmore => exact (hmore.ends hP hne).append _

end Rules

theorem Operand.ends {budget : Nat} : ∀ t, Operand budget t → Ends t.tokens := by
  induction budget with
  | zero => exact fun t ht => ht.elim
  | succ budget ih => exact fun t ht => Chain.ends ih ht

end PackageManifest.Proofs.Grammar
