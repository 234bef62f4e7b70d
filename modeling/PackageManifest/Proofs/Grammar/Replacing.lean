import PackageManifest.Proofs.Grammar.Budgets
import PackageManifest.Proofs.Grammar.Slots
import PackageManifest.Proofs.Sites

/-!
# Replacing deep inside of an expression

Every node in an expression stands there by some rule of the grammar, and anything by the same rule
may take its place (`Part.at`). One step down a path is a case of each rule (`Part.child`), and
costs at most one level of nesting.
-/

namespace PackageManifest.Proofs.Grammar

open Source

/-! ## What a rule asks of a node it is applied to -/

/-- Nodes that no rule tells apart when it is applied to them. -/
structure Resembles (old new : Tree) : Prop where
  isNode : ∀ kind, new.isNode kind = old.isNode kind
  takesBlock : takesBlock new = takesBlock old

theorem Resembles.refl (t : Tree) : Resembles t t := ⟨fun _ => rfl, rfl⟩

/-- Only calls are told apart by more than their kind. -/
theorem Resembles.of_isNode {old new : Tree} {kind : NodeKind} (hold : old.isNode kind = true)
    (hnew : new.isNode kind = true) (hkind : kind ≠ .callExpr) : Resembles old new := by
  rw [Tree.eq_node_of_isNode hold, Tree.eq_node_of_isNode hnew]
  refine ⟨fun other => rfl, ?_⟩
  have hcall : (kind == .callExpr) = false := beq_eq_false_iff_ne.2 hkind
  simp [Grammar.takesBlock, hcall]

theorem Resembles.child {old new : Tree} (h : Resembles old new) (kind : NodeKind)
    (left right : List Tree) :
    Resembles (.node kind (left ++ old :: right)) (.node kind (left ++ new :: right)) := by
  refine ⟨fun other => rfl, ?_⟩
  have hlast : (left ++ new :: right).getLast?.map (Tree.isNode .argumentList) =
      (left ++ old :: right).getLast?.map (Tree.isNode .argumentList) := by
    rcases List.eq_nil_or_concat right with rfl | ⟨init, last, rfl⟩
    · rw [List.getLast?_concat, List.getLast?_concat, Option.map_some, Option.map_some,
        h.isNode]
    · rw [List.concat_eq_append, ← List.cons_append, ← List.cons_append, ← List.append_assoc,
        ← List.append_assoc, List.getLast?_concat, List.getLast?_concat]
  rw [Grammar.takesBlock, Grammar.takesBlock, Tree.children_node, Tree.children_node, hlast]
  rfl

theorem Resembles.set {t old new : Tree} {path : List Nat} (h : Resembles old new)
    (hget : t.get? path = some old) : Resembles t (t.set path new) := by
  induction path generalizing t with
  | nil =>
    obtain rfl : t = old := Option.some.inj hget
    rwa [Tree.set]
  | cons i path ih =>
    cases t with
    | token u => cases hget
    | node kind children =>
      obtain ⟨c, hc, hinner⟩ := Option.bind_eq_some_iff.1 hget
      obtain ⟨left, right, rfl, hmodify⟩ := modify_at hc
      rw [Tree.set, hmodify]
      exact (ih hinner).child kind left right

/-! ## Parts of an expression -/

inductive Part where
  | sequence
  | operand
  | arguments (opening close : TokenKind)
  | argument (separated : Bool)
  | arrayElement (separated : Bool)
  | block

def Part.Holds (budget : Nat) : Part → Tree → Prop
  | sequence => Sequence (Operand budget)
  | operand => Operand budget
  | arguments opening close => Arguments (Operand budget) opening close
  | argument separated => Element (Operand budget) .argument separated
  | arrayElement separated => Element (Operand budget) .arrayElement separated
  | block => Block

/-- `t` is a part with at most `steps` levels less to nest than `budget`, and `P` holds of all that
may take its place. -/
def Exchangeable (budget steps : Nat) (t : Tree) (P : Tree → Prop) : Prop :=
  ∃ (part : Part) (room : Nat), budget ≤ room + steps ∧ part.Holds room t ∧
    ∀ new, part.Holds room new → Resembles t new → P new

theorem Exchangeable.mono {budget steps : Nat} {t : Tree} {P Q : Tree → Prop}
    (h : Exchangeable budget steps t P) (hPQ : ∀ {new}, P new → Q new) :
    Exchangeable budget steps t Q := by
  obtain ⟨part, room, hroom, ht, hfill⟩ := h
  exact ⟨part, room, hroom, ht, fun new hnew hsame => hPQ (hfill new hnew hsame)⟩

theorem Exchangeable.of_rule {budget : Nat} (part : Part) {t : Tree} {P : Tree → Prop}
    (ht : part.Holds budget t) (hfill : ∀ new, part.Holds budget new → P new) :
    Exchangeable (budget + 1) 1 t P :=
  ⟨part, budget, Nat.le_refl _, ht, fun new hnew _ => hfill new hnew⟩

/-! ## One step down -/

section Steps

variable {budget : Nat} {kind : NodeKind} {left right : List Tree} {c : Tree}

theorem Operations.child {P : Tree → Prop} {due : Nat}
    (h : Operations P due (left ++ c :: right)) (hc : c.token? = none) :
    P c ∧ ∀ new, P new → Operations P due (left ++ new :: right) := by
  generalize htrees : left ++ c :: right = trees at h
  induction h generalizing left with
  | done => exact absurd htrees (by simp)
  | @step due before behind op t more hbefore hjoins hbehind ht hmore ih =>
    have hfront :
        leaves before ++ .token op :: leaves behind = leaves (before ++ op :: behind) := by
      simp [leaves]
    rw [hfront] at htrees
    rcases Tree.leaves_append_eq hc htrees.symm with ⟨rfl, rfl, rfl⟩ | ⟨inner, rfl, rfl⟩
    · refine ⟨ht, fun new hnew => ?_⟩
      rw [← hfront]
      exact .step hbefore hjoins hbehind hnew hmore
    · obtain ⟨hold, hfill⟩ := ih rfl
      refine ⟨hold, fun new hnew => ?_⟩
      rw [List.append_assoc, List.cons_append, ← hfront]
      exact .step hbefore hjoins hbehind ht (hfill new hnew)

theorem Elements.isNode_of_mem {P : Tree → Prop} {close : TokenKind} {trees : List Tree}
    (h : Elements P kind close trees) : ∀ t ∈ trees, t.token? = none → t.isNode kind = true := by
  have leaves_node (ts : List Token) :
      ∀ t ∈ leaves ts, t.token? = none → t.isNode kind = true := by
    intro t ht hnone
    obtain ⟨u, _, rfl⟩ := Tree.eq_token_of_mem_leaves ht
    cases hnone
  induction h with
  | close _ _ =>
    rw [List.forall_mem_append]
    exact ⟨leaves_node _, leaves_node [_]⟩
  | last _ he _ _ =>
    rw [List.append_assoc, List.forall_mem_append, List.cons_append, List.forall_mem_cons,
      List.forall_mem_append]
    exact ⟨leaves_node _, fun _ => he.isNode, leaves_node _, leaves_node [_]⟩
  | next _ he _ ih =>
    rw [List.forall_mem_append, List.forall_mem_cons]
    exact ⟨leaves_node _, fun _ => he.isNode, ih⟩

theorem Delimited.child {P : Tree → Prop} {item : NodeKind} {opening close : TokenKind}
    (h : Delimited P kind item opening close (.node kind (left ++ c :: right)))
    (hc : c.token? = none) :
    ∃ separated, Element P item separated c ∧ ∀ new, Element P item separated new →
      Delimited P kind item opening close (.node kind (left ++ new :: right)) := by
  refine Delimited.item h ?_
  generalize htrees : left ++ c :: right = trees at h
  cases h with
  | intro ht helements =>
    cases left with
    | nil =>
      obtain ⟨rfl, _⟩ := List.cons.inj htrees
      cases hc
    | cons u left =>
      obtain ⟨_, rfl⟩ := List.cons.inj htrees
      exact helements.isNode_of_mem c (by simp) hc

theorem arrayLiteral_child
    (h : ArrayLiteral (Operand budget) (.node .arrayExpr (left ++ c :: right)))
    (hc : c.token? = none) {P : Tree → Prop}
    (hP : ∀ new, ArrayLiteral (Operand budget) (.node .arrayExpr (left ++ new :: right)) → P new) :
    Exchangeable (budget + 1) 1 c P := by
  obtain ⟨separated, hold, hfill⟩ := Delimited.child h hc
  exact .of_rule (.arrayElement separated) hold fun new hnew => hP new (hfill new hnew)

theorem Block.no_child {t : Tree} (h : Block t) (ht : t = .node kind (left ++ c :: right)) :
    c.token? ≠ none := by
  intro hc
  cases h with
  | intro _ _ =>
    obtain ⟨_, hleaves⟩ := Tree.node.inj ht
    exact Tree.leaves_ne hc hleaves

theorem Primary.child (h : Primary (Operand budget) (.node kind (left ++ c :: right)))
    (hc : c.token? = none) :
    Exchangeable (budget + 1) 1 c fun new =>
      Primary (Operand budget) (.node kind (left ++ new :: right)) := by
  generalize htree : Source.Tree.node kind (left ++ c :: right) = t at h
  cases h with
  | leaf _ =>
    obtain ⟨_, hleaf⟩ := Tree.node.inj htree
    exact absurd hleaf.symm (@Tree.leaves_ne [_] _ _ _ hc)
  | member _ _ =>
    obtain ⟨_, hleaves⟩ := Tree.node.inj htree
    exact absurd hleaves.symm (@Tree.leaves_ne [_, _] _ _ _ hc)
  | array harray =>
    subst htree
    obtain rfl : kind = .arrayExpr := beq_iff_eq.1 ((Tree.isNode_node ..).symm.trans harray.isNode)
    exact arrayLiteral_child harray hc fun new hnew => .array hnew
  | tuple hlist =>
    obtain ⟨rfl, hchildren⟩ := Tree.node.inj htree
    obtain ⟨rfl, rfl, rfl⟩ := @Tree.leaves_concat_eq [] _ _ _ _ hc hchildren.symm
    exact .of_rule (.arguments .lParen .rParen) hlist fun new hnew => .tuple hnew
  | block hblock => exact absurd hc (hblock.no_child htree.symm)
  | @prefixed op t hop ht =>
    obtain ⟨rfl, hchildren⟩ := Tree.node.inj htree
    cases left with
    | nil =>
      obtain ⟨rfl, _⟩ := List.cons.inj hchildren
      cases hc
    | cons u left =>
      obtain ⟨rfl, hmore⟩ := List.cons.inj hchildren
      obtain ⟨rfl, rfl, rfl⟩ := @Tree.leaves_concat_eq [] _ _ _ _ hc hmore.symm
      exact .of_rule .operand ht fun new hnew => .prefixed hop hnew

theorem Application.rebase {P : Tree → Prop} {base first new : Tree} {more : List Tree}
    (h : Application P base (.node kind (first :: more))) (hsame : Resembles base new) :
    base = first ∧ Application P new (.node kind (new :: more)) := by
  generalize htree : Source.Tree.node kind (first :: more) = t at h
  cases h with
  | member hbefore hdot hname =>
    cases htree
    exact ⟨rfl, .member hbefore hdot hname⟩
  | call hbefore hline hlist =>
    cases htree
    exact ⟨rfl, .call hbefore hline hlist⟩
  | callWithBlock hbefore hline hlist hbetween hsame hblock =>
    cases htree
    exact ⟨rfl, .callWithBlock hbefore hline hlist hbetween hsame hblock⟩
  | subscript hbefore hline hlist =>
    cases htree
    exact ⟨rfl, .subscript hbefore hline hlist⟩
  | block htakes hbefore hline hblock =>
    cases htree
    exact ⟨rfl, .block (hsame.takesBlock.trans htakes) hbefore hline hblock⟩

theorem Application.child {base first : Tree}
    (h : Application (Operand budget) base (.node kind (first :: (left ++ c :: right))))
    (hc : c.token? = none) :
    Exchangeable (budget + 1) 1 c fun new =>
      Application (Operand budget) base (.node kind (first :: (left ++ new :: right))) := by
  generalize htree : Source.Tree.node kind (first :: (left ++ c :: right)) = t at h
  cases h with
  | @member before dot name _ _ _ =>
    have hchildren := (List.cons.inj (Tree.node.inj htree).2).2
    have hleaves : leaves before ++ [.token dot, .token name] = leaves (before ++ [dot, name]) := by
      simp [leaves]
    exact absurd (hleaves.symm.trans hchildren.symm) (Tree.leaves_ne hc)
  | call hbefore hline hlist =>
    obtain ⟨rfl, hchildren⟩ := Tree.node.inj htree
    obtain ⟨rfl, hbehind⟩ := List.cons.inj hchildren
    obtain ⟨rfl, rfl, rfl⟩ := Tree.leaves_concat_eq hc hbehind.symm
    exact .of_rule (.arguments .lParen .rParen) hlist fun new hnew => .call hbefore hline hnew
  | @callWithBlock before between list block hbefore hline hlist hbetween hsame hblock =>
    obtain ⟨rfl, hchildren⟩ := Tree.node.inj htree
    obtain ⟨rfl, hbehind⟩ := List.cons.inj hchildren
    have hfill {list block : Tree} (hlist : Arguments (Operand budget) .lParen .rParen list)
        (hblock : Block block) : Application (Operand budget) first (.node .callExpr
          (first :: (leaves before ++ list :: (leaves between ++ [block])))) := by
      have : Application (Operand budget) first _ :=
        .callWithBlock hbefore hline hlist hbetween hsame hblock
      simpa using this
    have hbehind : leaves before ++ list :: (leaves between ++ [block]) = left ++ c :: right := by
      rw [hbehind]
      simp
    rcases Tree.leaves_append_eq hc hbehind with ⟨rfl, rfl, rfl⟩ | ⟨inner, rfl, hmore⟩
    · exact .of_rule (.arguments .lParen .rParen) hlist fun new hnew => hfill hnew hblock
    · obtain ⟨rfl, rfl, rfl⟩ := Tree.leaves_concat_eq hc hmore
      refine .of_rule .block hblock fun new hnew => ?_
      have := hfill hlist hnew
      simpa using this
  | subscript hbefore hline hlist =>
    obtain ⟨rfl, hchildren⟩ := Tree.node.inj htree
    obtain ⟨rfl, hbehind⟩ := List.cons.inj hchildren
    obtain ⟨rfl, rfl, rfl⟩ := Tree.leaves_concat_eq hc hbehind.symm
    exact .of_rule (.arguments .lBracket .rBracket) hlist fun new hnew =>
      .subscript hbefore hline hnew
  | block htakes hbefore hline hblock =>
    obtain ⟨rfl, hchildren⟩ := Tree.node.inj htree
    obtain ⟨rfl, hbehind⟩ := List.cons.inj hchildren
    obtain ⟨rfl, rfl, rfl⟩ := Tree.leaves_concat_eq hc hbehind.symm
    exact .of_rule .block hblock fun new hnew => .block htakes hbefore hline hnew

theorem Operand.child (h : Operand budget (.node kind (left ++ c :: right)))
    (hc : c.token? = none) :
    Exchangeable budget 1 c fun new => Operand budget (.node kind (left ++ new :: right)) := by
  cases budget with
  | zero => exact h.elim
  | succ budget =>
    change Chain (Operand budget) _ at h
    generalize htree : Source.Tree.node kind (left ++ c :: right) = t at h
    cases h with
    | primary hprimary =>
      subst htree
      exact (hprimary.child hc).mono .primary
    | @apply base t hbase hsign happly =>
      subst htree
      cases left with
      | nil =>
        obtain ⟨rfl, _⟩ := happly.rebase (.refl base)
        refine ⟨.operand, budget + 1, Nat.le_succ _, hbase, fun new hnew hsame => ?_⟩
        exact .apply hnew ((hsame.isNode _).trans hsign) (happly.rebase hsame).2
      | cons first left => exact (Application.child happly hc).mono (.apply hbase hsign)

theorem Sequence.child (h : Sequence (Operand budget) (.node kind (left ++ c :: right)))
    (hc : c.token? = none) :
    Exchangeable budget 1 c fun new =>
      Sequence (Operand budget) (.node kind (left ++ new :: right)) := by
  generalize htree : Source.Tree.node kind (left ++ c :: right) = t at h
  cases h with
  | single ht =>
    subst htree
    exact (Operand.child ht hc).mono .single
  | @joined first trees hfirst hne hmore =>
    obtain ⟨rfl, hchildren⟩ := Tree.node.inj htree
    cases left with
    | nil =>
      obtain ⟨rfl, rfl⟩ := List.cons.inj hchildren
      exact ⟨.operand, budget, Nat.le_succ _, hfirst, fun new hnew _ => .joined hnew hne hmore⟩
    | cons u left =>
      obtain ⟨rfl, rfl⟩ := List.cons.inj hchildren
      obtain ⟨hold, hfill⟩ := hmore.child hc
      exact ⟨.operand, budget, Nat.le_succ _, hold, fun new hnew _ =>
        .joined hfirst (by simp) (hfill new hnew)⟩

theorem Part.child {part : Part} (h : part.Holds budget (.node kind (left ++ c :: right)))
    (hc : c.token? = none) :
    Exchangeable budget 1 c fun new => part.Holds budget (.node kind (left ++ new :: right)) := by
  have element {kind : NodeKind} {separated : Bool} {t : Tree}
      (h : Element (Operand budget) kind separated t) (ht : t = .node kind (left ++ c :: right)) :
      Exchangeable budget 1 c fun new =>
        Element (Operand budget) kind separated (.node kind (left ++ new :: right)) := by
    subst ht
    exact ⟨.sequence, budget, Nat.le_succ _, (h.around hc).1, fun new hnew _ => h.value hc new hnew⟩
  cases part with
  | sequence => exact Sequence.child h hc
  | operand => exact Operand.child h hc
  | arguments opening close =>
    obtain rfl : kind = .argumentList := beq_iff_eq.1 ((Tree.isNode_node ..).symm.trans h.isNode)
    obtain ⟨separated, hold, hfill⟩ := Delimited.child h hc
    exact ⟨.argument separated, budget, Nat.le_succ _, hold, fun new hnew _ => hfill new hnew⟩
  | argument separated =>
    obtain rfl : kind = .argument := beq_iff_eq.1 ((Tree.isNode_node ..).symm.trans h.isNode)
    exact element h rfl
  | arrayElement separated =>
    obtain rfl : kind = .arrayElement := beq_iff_eq.1 ((Tree.isNode_node ..).symm.trans h.isNode)
    exact element h rfl
  | block => exact absurd hc (h.no_child rfl)

end Steps

/-! ## All the way down -/

/-- Anything by the same rule may take the place of what stands at the end of a path. -/
theorem Part.at {part : Part} {budget : Nat} {t old : Tree} {path : List Nat}
    (h : part.Holds budget t) (hget : t.get? path = some old) (hold : old.token? = none) :
    Exchangeable budget path.length old fun new => part.Holds budget (t.set path new) := by
  induction path generalizing part budget t with
  | nil =>
    obtain rfl : t = old := Option.some.inj hget
    exact ⟨part, budget, Nat.le_refl _, h, fun new hnew _ => by simpa only [Tree.set] using hnew⟩
  | cons i path ih =>
    cases t with
    | token u => cases hget
    | node kind children =>
      obtain ⟨c, hc, hinner⟩ := Option.bind_eq_some_iff.1 hget
      have hnode : c.token? = none := by
        cases c with
        | node _ _ => rfl
        | token u =>
          cases path with
          | nil =>
            cases hinner
            cases hold
          | cons j path => cases hinner
      obtain ⟨left, right, rfl, hmodify⟩ := modify_at hc
      obtain ⟨inner, room, hroom, hholds, hfill⟩ := Part.child h hnode
      obtain ⟨last, deep, hdeep, hlast, hset⟩ := ih hholds hinner
      refine ⟨last, deep, by rw [List.length_cons]; omega, hlast, fun new hnew hsame => ?_⟩
      simp only [Tree.set, hmodify]
      exact hfill _ (hset new hnew hsame) (hsame.set hinner)

/-- The rules by which an expression can stand in another one. -/
theorem Part.of_isExpr {part : Part} {budget : Nat} {t : Tree} (h : part.Holds budget t)
    (ht : t.isExpr = true) : part = .sequence ∨ part = .operand ∨ part = .block := by
  have absurd_kind {kind : NodeKind} (hkind : t.isNode kind = true) (hne : kind.isExpr = false) :
      False := by
    rw [Tree.eq_node_of_isNode hkind] at ht
    exact Bool.false_ne_true (hne.symm.trans ht)
  cases part with
  | sequence => exact .inl rfl
  | operand => exact .inr (.inl rfl)
  | arguments opening close => exact (absurd_kind (Delimited.isNode h) rfl).elim
  | argument separated => exact (absurd_kind (Element.isNode h) rfl).elim
  | arrayElement separated => exact (absurd_kind (Element.isNode h) rfl).elim
  | block => exact .inr (.inr rfl)

theorem Part.exists_sequence {part : Part} {budget : Nat} {t : Tree} (h : part.Holds budget t)
    (ht : t.isExpr = true) : ∃ room, Sequence (Operand room) t := by
  rcases Part.of_isExpr h ht with rfl | rfl | rfl
  · exact ⟨budget, h⟩
  · exact ⟨budget, .single h⟩
  · exact ⟨1, .single (.primary (.block h))⟩

theorem Part.operand_of_node {part : Part} {budget : Nat} {t : Tree} {kind : NodeKind}
    (h : part.Holds budget t) (ht : t.isNode kind = true)
    (hkind : kind = .arrayExpr ∨ kind = .callExpr) :
    Operand budget t ∧ ∀ new, Operand budget new → part.Holds budget new := by
  have hexpr : t.isExpr = true := by
    rw [Tree.eq_node_of_isNode ht]
    rcases hkind with rfl | rfl <;> rfl
  rcases Part.of_isExpr h hexpr with rfl | rfl | rfl
  · have hne : kind ≠ .sequenceExpr := by
      rintro rfl
      rcases hkind with hkind | hkind <;> cases hkind
    exact ⟨Sequence.operand h ht hne, fun new hnew => .single hnew⟩
  · exact ⟨h, fun new hnew => hnew⟩
  · cases h with
    | intro _ _ => rcases hkind with rfl | rfl <;> cases ht

/-- Where an array or a call stands in an expression, any operand that resembles it may stand, and
that with as much room for nesting as is needed. -/
theorem Sequence.replace {budget : Nat} {value old : Tree} {path : List Nat} {kind : NodeKind}
    (h : Sequence (Operand budget) value) (hget : value.get? path = some old)
    (hold : old.isNode kind = true) (hkind : kind = .arrayExpr ∨ kind = .callExpr)
    (needed : Nat) :
    ∃ room, needed ≤ room ∧ Operand (room + 1) old ∧
      ∀ new, Operand (room + 1) new → Resembles old new →
        ∃ more, Sequence (Operand more) (value.set path new) := by
  have hwide : Part.sequence.Holds (budget + needed + 1 + path.length) value :=
    h.mono (Operand.mono (by omega))
  obtain ⟨part, room, hroom, hpart, hfill⟩ := Part.at hwide hget (Tree.token?_of_isNode hold)
  obtain ⟨room, rfl⟩ : ∃ inner, room = inner + 1 := ⟨room - 1, by omega⟩
  obtain ⟨hoperand, hplace⟩ := Part.operand_of_node hpart hold hkind
  exact ⟨room, by omega, hoperand, fun new hnew hsame =>
    ⟨_, hfill new (hplace new hnew) hsame⟩⟩

end PackageManifest.Proofs.Grammar
