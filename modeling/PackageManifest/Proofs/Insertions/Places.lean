import PackageManifest.Proofs.Faithful
import PackageManifest.Proofs.Revisions

/-!
# Where something is inserted

A new element of a list goes behind an anchor. The trivia that trails the anchor on its line stays
between the two if the new element starts a line (`Trails`, `insertAfter_eq`), and the anchor gets a
comma if it lacks one (`missingComma`).
-/

namespace PackageManifest.Proofs.Insertions

open Source Grammar Lexing Shapes Edits Revisions PackageManifest.Edit

/-! ## Trivia behind the anchor -/

/-- `inline` is all of the trivia that stays on the line, in front of `more`. -/
structure Trails (inline : List Token) (more : List Tree) : Prop where
  inline : ∀ u ∈ inline, u.isInlineTrivia = true
  more : ∀ t, more.head? = some t → isInlineTrivia t = false

theorem exists_trails (trees : List Tree) :
    ∃ inline more, trees = leaves inline ++ more ∧ Trails inline more := by
  induction trees with
  | nil => exact ⟨[], [], rfl, by simp, by simp⟩
  | cons t trees ih =>
    cases ht : isInlineTrivia t with
    | false => exact ⟨[], t :: trees, rfl, by simp, by simpa using ht⟩
    | true =>
      cases t with
      | node kind children => cases ht
      | token u =>
        obtain ⟨inline, more, rfl, htrails⟩ := ih
        exact ⟨u :: inline, more, rfl, List.forall_mem_cons.2 ⟨ht, htrails.inline⟩, htrails.more⟩

namespace Trails

variable {inline : List Token} {more : List Tree}

theorem takeWhile (h : Trails inline more) :
    (leaves inline ++ more).takeWhile isInlineTrivia = leaves inline ∧
      (leaves inline ++ more).dropWhile isInlineTrivia = more := by
  have hinline : ∀ t ∈ leaves inline, isInlineTrivia t = true := by
    intro t ht
    obtain ⟨u, hu, rfl⟩ := Tree.eq_token_of_mem_leaves ht
    exact h.inline u hu
  rw [List.takeWhile_append_of_pos hinline, List.dropWhile_append_of_pos hinline]
  cases more with
  | nil => simp
  | cons t more => simp [h.more t rfl]

theorem allTrivia (h : Trails inline more) : AllTrivia inline := fun u hu =>
  (Bool.and_eq_true_iff.1 (h.inline u hu)).1

/-- The trivia that trails the last element of a list ends at a line break or at the delimiter. -/
theorem more_eq (h : Trails inline more) {behind : List Token} {close : Token}
    (hbehind : AllTrivia behind) (hclose : close.isTrivia = false)
    (heq : leaves behind ++ [.token close] = leaves inline ++ more) :
    ∃ u rest, more = .token u :: rest ∧ (u.kind = .newline ∨ u = close) := by
  have hmem (t : Tree) : t ∈ leaves behind ++ [.token close] ↔ t ∈ leaves inline ++ more := by
    rw [heq]
  cases more with
  | nil =>
    have hlast := (hmem (.token close)).1 (by simp)
    rw [List.append_nil] at hlast
    obtain ⟨u, hu, hclosing⟩ := Tree.eq_token_of_mem_leaves hlast
    rw [Tree.token.inj hclosing, h.allTrivia u hu] at hclose
    cases hclose
  | cons t rest =>
    rcases List.mem_append.1 ((hmem t).2 (by simp)) with ht | ht
    · obtain ⟨u, hu, rfl⟩ := Tree.eq_token_of_mem_leaves ht
      have hinline : u.isInlineTrivia = false := h.more _ rfl
      rw [Token.isInlineTrivia, hbehind u hu, Bool.true_and, bne_eq_false_iff_eq] at hinline
      exact ⟨u, rest, rfl, .inl hinline⟩
    · exact ⟨close, rest, by rw [List.mem_singleton.1 ht], .inr rfl⟩

variable (left : List Tree) (x n : Tree) (lead : List Token)

theorem insertAfter_eq (h : Trails inline more) :
    insertAfter (left ++ x :: (leaves inline ++ more)) left.length lead n =
      if containsNewline lead then left ++ x :: (leaves inline ++ (leaves lead ++ n :: more))
      else left ++ x :: (leaves lead ++ n :: (leaves inline ++ more)) := by
  have htake : (left ++ x :: (leaves inline ++ more)).take (left.length + 1) = left ++ [x] := by
    rw [List.append_cons, List.take_left' (by simp)]
  have hdrop : (left ++ x :: (leaves inline ++ more)).drop (left.length + 1) =
      leaves inline ++ more := by
    rw [List.append_cons, List.drop_left' (by simp)]
  rw [insertAfter, htake, hdrop, h.takeWhile.1, h.takeWhile.2]
  split <;> simp

theorem tokens_insertAfter (h : Trails inline more) :
    Tree.tokensList (insertAfter (left ++ x :: (leaves inline ++ more)) left.length lead n) =
      Tree.tokensList left ++ x.tokens ++
        (if containsNewline lead then inline ++ (lead ++ n.tokens)
          else lead ++ n.tokens ++ inline) ++
        Tree.tokensList more := by
  rw [h.insertAfter_eq]
  split <;> simp

theorem trailingLineComment_eq (h : Trails inline more) :
    trailingLineComment (left ++ x :: (leaves inline ++ more)) left.length =
      endsWithLineComment inline := by
  have hall : inline.filter Token.isTrivia = inline := List.filter_eq_self.2 h.allTrivia
  rw [trailingLineComment, List.append_cons, List.drop_left' (by simp), h.takeWhile.1,
    directTrivia, Tree.filterMap_token?_leaves, hall]

end Trails

/-! ## Commas -/

def missingComma (e : Tree) : List Token := if hasSeparator e then [] else [⟨.comma, [',']⟩]

section Commas

variable {kind : NodeKind} {e : Tree}

theorem tokens_withSeparator (he : e.isNode kind = true) :
    (withSeparator e).tokens = e.tokens ++ missingComma e := by
  rw [Tree.eq_node_of_isNode he, withSeparator, missingComma]
  split <;> simp [commaToken]

theorem hasSeparator_withSeparator (he : e.isNode kind = true) :
    hasSeparator (withSeparator e) = true := by
  rw [Tree.eq_node_of_isNode he, withSeparator]
  split
  · assumption
  · simp [hasSeparator, commaToken]

theorem withSeparator_withSeparator (e : Tree) :
    withSeparator (withSeparator e) = withSeparator e := by
  cases e with
  | token t => rfl
  | node kind children =>
    have hnode : (withSeparator (.node kind children)).isNode kind = true := by
      rw [isNode_withSeparator, Tree.isNode_node, beq_self_eq_true]
    have hcomma : hasSeparator (withSeparator (.node kind children)) = true :=
      @hasSeparator_withSeparator kind _ (by rwa [isNode_withSeparator] at hnode)
    rw [Tree.eq_node_of_isNode hnode] at hcomma ⊢
    rw [withSeparator, if_pos hcomma]

theorem hasSeparator_of_shaped {whole item : NodeKind} {children : List Tree}
    (hitem : itemKind? whole = some item) (h : Shaped (.node whole children)) :
    ∀ e ∈ (children.filter (Tree.isNode item)).dropLast, hasSeparator e = true := by
  intro e he
  cases h with
  | node hshape hchildren =>
    have hcomma := (hshape.list item hitem).2 e he
    obtain ⟨hmem, hnode⟩ := List.mem_filter.1 (List.dropLast_subset _ he)
    have hshaped := hchildren e hmem
    rw [Tree.eq_node_of_isNode hnode] at hshaped
    cases hshaped with
    | node helement _ =>
      -- An element has its comma at its end or nowhere.
      have helemental := helement.element (isItemKind_of_itemKind? hitem)
      rwa [Elemental.hasComma_eq helemental] at hcomma

/-- Behind an element that got a comma, a new one needs a comma if others follow. -/
theorem hasSeparator_insert {before after : List Tree} {a a' n : Tree}
    (h : ∀ e ∈ (before ++ a :: after).dropLast, hasSeparator e = true)
    (ha : hasSeparator a' = true) (hn : after ≠ [] → hasSeparator n = true) :
    ∀ e ∈ (before ++ a' :: n :: after).dropLast, hasSeparator e = true := by
  cases after with
  | nil => simpa [or_imp, forall_and, ha] using h
  | cons b after =>
    simp only [List.dropLast_append_cons, List.dropLast_cons_cons, List.forall_mem_append,
      List.forall_mem_cons] at h ⊢
    exact ⟨h.1, ha, hn (List.cons_ne_nil b after), h.2.2⟩

end Commas

/-! ## What is written -/

theorem textOf_newLine (layout : Layout) (level : Nat) :
    textOf (layout.newLine level) = layout.lineEnding.text ++ layout.indent.render level := by
  rw [Layout.newLine, newlineAndIndent, textOf_cons]
  split
  · rename_i hempty
    rw [List.isEmpty_iff.1 hempty]
    rfl
  · rw [textOf_cons, textOf_nil, List.append_nil]

theorem containsNewline_newLine (layout : Layout) (level : Nat) :
    containsNewline (layout.newLine level) = true := rfl

/-! ## Sites of a tree -/

theorem applyTo?_node {root : Tree} {site : Site} {kind : NodeKind} (children : List Tree)
    (h : site.tree.isNode kind = true) :
    Edit.applyTo? ⟨site, .node kind children⟩ root =
      some (root.set site.path (.node kind children)) :=
  if_pos (beq_iff_eq.1 h).symm

theorem lexed_of_found {root : Tree} {kind : NodeKind} {site : Site} (hroot : Faithful root)
    (hsite : Found root kind site) : ∃ rest, Lexed site.tree.tokens rest := by
  obtain ⟨children, rfl, _, hlexed⟩ := faithful_iff.1 hroot
  obtain ⟨after, htokens, _⟩ := Tree.tokens_set hsite.get?
  exact lexed_middle (htokens ▸ hlexed)

end PackageManifest.Proofs.Insertions
