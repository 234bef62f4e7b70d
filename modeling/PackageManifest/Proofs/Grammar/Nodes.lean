import PackageManifest.Proofs.Grammar.Rules
import PackageManifest.Proofs.Trees

/-!
# What expressions are made of

An expression is made of tokens and of the nodes of the expression grammar. So it has every property
that tokens have and such nodes take over from their children (`Expression.all`).
-/

namespace PackageManifest.Proofs.Grammar

open Source

def inExpressions : NodeKind → Bool
  | .sourceFile | .importDecl | .variableDecl | .typeClause | .statement => false
  | _ => true

/-- Tokens have the property, and nodes of expressions have it if their children do. -/
structure Inherited (Q : Tree → Prop) : Prop where
  token : ∀ t, Q (.token t)
  node : ∀ {kind children}, inExpressions kind = true → (∀ c ∈ children, Q c) →
    Q (.node kind children)

theorem Inherited.leaves {Q : Tree → Prop} (hQ : Inherited Q) (ts : List Token) :
    ∀ c ∈ leaves ts, Q c := by
  intro c hc
  obtain ⟨t, _, rfl⟩ := Tree.eq_token_of_mem_leaves hc
  exact hQ.token t

theorem Inherited.flat {Q : Tree → Prop} (hQ : Inherited Q) {kind : NodeKind}
    (hkind : inExpressions kind = true) (ts : List Token) :
    Q (.node kind (Source.leaves ts)) := hQ.node hkind (hQ.leaves ts)

section Rules

variable {P Q : Tree → Prop} (hQ : Inherited Q) (hP : ∀ {t}, P t → Q t)
include hQ

theorem Block.all {t : Tree} (h : Block t) : Q t := by
  cases h
  exact hQ.flat rfl _

include hP

theorem Operations.all {due : Nat} {trees : List Tree} (h : Operations P due trees) :
    ∀ c ∈ trees, Q c := by
  induction h with
  | done => exact List.forall_mem_nil _
  | step _ _ _ ht _ ih =>
    simp only [List.forall_mem_append, List.forall_mem_cons]
    exact ⟨⟨hQ.leaves _, hQ.token _, hQ.leaves _⟩, hP ht, ih⟩

theorem Sequence.all {t : Tree} (h : Sequence P t) : Q t := by
  cases h with
  | single ht => exact hP ht
  | joined hfirst _ hmore =>
    exact hQ.node rfl (List.forall_mem_cons.2 ⟨hP hfirst, Operations.all hQ hP hmore⟩)

theorem Element.all {kind : NodeKind} (hkind : inExpressions kind = true) {separated : Bool}
    {t : Tree} (h : Element P kind separated t) : Q t := by
  cases h with
  | bare _ hvalue =>
    apply hQ.node hkind
    simp only [List.forall_mem_append, List.forall_mem_cons]
    exact ⟨hQ.leaves _, Sequence.all hQ hP hvalue, List.forall_mem_nil _⟩
  | separated _ hvalue _ _ =>
    apply hQ.node hkind
    simp only [List.forall_mem_append, List.forall_mem_cons]
    exact ⟨⟨hQ.leaves _, Sequence.all hQ hP hvalue, hQ.leaves _⟩, hQ.token _,
      List.forall_mem_nil _⟩

theorem Elements.all {kind : NodeKind} (hkind : inExpressions kind = true) {close : TokenKind}
    {trees : List Tree} (h : Elements P kind close trees) : ∀ c ∈ trees, Q c := by
  induction h with
  | close _ _ =>
    simp only [List.forall_mem_append, List.forall_mem_cons]
    exact ⟨hQ.leaves _, hQ.token _, List.forall_mem_nil _⟩
  | last _ helement _ _ =>
    simp only [List.forall_mem_append, List.forall_mem_cons]
    exact ⟨⟨hQ.leaves _, Element.all hQ hP hkind helement, hQ.leaves _⟩, hQ.token _,
      List.forall_mem_nil _⟩
  | next _ helement _ ih =>
    simp only [List.forall_mem_append, List.forall_mem_cons]
    exact ⟨hQ.leaves _, Element.all hQ hP hkind helement, ih⟩

theorem Delimited.all {kind item : NodeKind} (hkind : inExpressions kind = true)
    (hitem : inExpressions item = true) {opening close : TokenKind} {t : Tree}
    (h : Delimited P kind item opening close t) : Q t := by
  cases h with
  | intro _ hmore =>
    exact hQ.node hkind
      (List.forall_mem_cons.2 ⟨hQ.token _, Elements.all hQ hP hitem hmore⟩)

theorem Primary.all {t : Tree} (h : Primary P t) : Q t := by
  cases h with
  | @leaf t kind hleaf =>
    have hkind : inExpressions kind = true := by
      cases hname : t.kind <;> rw [hname] at hleaf <;> cases hleaf <;> rfl
    exact hQ.flat hkind [t]
  | @member dot name _ _ => exact hQ.flat rfl [dot, name]
  | array harray => exact Delimited.all hQ hP rfl rfl harray
  | tuple hlist =>
    exact hQ.node rfl
      (List.forall_mem_cons.2 ⟨Delimited.all hQ hP rfl rfl hlist, List.forall_mem_nil _⟩)
  | block hblock => exact Block.all hQ hblock
  | @prefixed op t _ ht =>
    exact hQ.node rfl (List.forall_mem_cons.2
      ⟨hQ.token op, List.forall_mem_cons.2 ⟨hP ht, List.forall_mem_nil _⟩⟩)

theorem Application.all {base t : Tree} (h : Application P base t) (hbase : Q base) : Q t := by
  have hlist {opening close : TokenKind} {list : Tree} (h : Arguments P opening close list) :
      Q list := Delimited.all hQ hP rfl rfl h
  cases h with
  | member _ _ _ =>
    apply hQ.node rfl
    simp only [List.forall_mem_append, List.forall_mem_cons]
    exact ⟨⟨hbase, hQ.leaves _⟩, hQ.token _, hQ.token _, List.forall_mem_nil _⟩
  | call _ _ harguments | subscript _ _ harguments =>
    apply hQ.node rfl
    simp only [List.forall_mem_append, List.forall_mem_cons]
    exact ⟨⟨hbase, hQ.leaves _⟩, hlist harguments, List.forall_mem_nil _⟩
  | callWithBlock _ _ harguments _ _ hblock =>
    apply hQ.node rfl
    simp only [List.forall_mem_append, List.forall_mem_cons]
    exact ⟨⟨⟨hbase, hQ.leaves _⟩, hlist harguments, hQ.leaves _⟩, Block.all hQ hblock,
      List.forall_mem_nil _⟩
  | block _ _ _ hblock =>
    apply hQ.node rfl
    simp only [List.forall_mem_append, List.forall_mem_cons]
    exact ⟨⟨hbase, hQ.leaves _⟩, Block.all hQ hblock, List.forall_mem_nil _⟩

theorem Chain.all {t : Tree} (h : Chain P t) : Q t := by
  induction h with
  | primary hprimary => exact Primary.all hQ hP hprimary
  | apply _ _ happly ih => exact Application.all hQ hP happly ih

end Rules

theorem Operand.all {Q : Tree → Prop} (hQ : Inherited Q) {budget : Nat} {t : Tree}
    (h : Operand budget t) : Q t := by
  induction budget generalizing t with
  | zero => exact False.elim h
  | succ budget ih => exact Chain.all hQ ih h

theorem Expression.all {Q : Tree → Prop} (hQ : Inherited Q) {t : Tree} (h : Expression t) : Q t :=
  Sequence.all hQ (Operand.all hQ) h

end PackageManifest.Proofs.Grammar
