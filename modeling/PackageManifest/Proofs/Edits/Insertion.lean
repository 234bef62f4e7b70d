import PackageManifest.Proofs.Grammar.Budgets
import PackageManifest.Proofs.Grammar.Slots
import PackageManifest.Proofs.Lexing.Seams

/-!
# A new element behind another one

Behind an element, which gets a comma if it has none, goes an element that has a comma exactly if
others follow it. The result is a list of the grammar again, and its tokens are its own cut.
-/

namespace PackageManifest.Proofs.Edits

open Source Grammar Lexing PackageManifest.Edit

/-! ## What is inserted -/

/-- An expression that nests less than `budget` deep, with tokens that are their own cut. -/
structure Readable (budget : Nat) (e : Tree) : Prop where
  sequence : Sequence (Operand budget) e
  lexed : ∃ rest, Lexed e.tokens rest

namespace Readable

variable {budget : Nat} {e : Tree}

theorem mono {more : Nat} (h : Readable budget e) (hle : budget ≤ more) : Readable more e :=
  ⟨h.sequence.mono (Operand.mono hle), h.lexed⟩

theorem headed (h : Readable budget e) : Headed e := h.sequence.headed (operand_complete budget)

theorem stops (h : Readable budget e) (more : List Char) : Stops isSpace (e.text ++ more) := by
  obtain ⟨_, hlexed⟩ := h.lexed
  exact stops_of_headed h.headed hlexed more

theorem cutBefore {behind : List Token} (h : Readable budget e) (hbehind : Follows behind) :
    CutBefore e.tokens behind := by
  obtain ⟨_, hlexed⟩ := h.lexed
  exact hbehind.cutBefore hlexed (h.sequence.ends Operand.ends)

theorem lexed_before {rest : List Char} (h : Readable budget e) (hrest : Apart rest) :
    Lexed e.tokens rest := by
  obtain ⟨_, hlexed⟩ := h.lexed
  exact hlexed.of_ends (h.sequence.ends Operand.ends) hrest

theorem lexed_cons {c : Char} {cs : List Char} (h : Readable budget e) (hc : Outside c) :
    Lexed e.tokens (c :: cs) :=
  h.lexed_before (hc.apart cs)

end Readable

/-! ## The children after an insertion -/

theorem takeWhile_isInlineTrivia (trees : List Tree) :
    ∃ inline : List Token, trees.takeWhile isInlineTrivia = leaves inline ∧
      ∀ u ∈ inline, u.isInlineTrivia = true := by
  induction trees with
  | nil => exact ⟨[], rfl, by simp⟩
  | cons t trees ih =>
    rw [List.takeWhile_cons]
    split
    · rename_i ht
      obtain ⟨inline, heq, hall⟩ := ih
      cases t with
      | token u => exact ⟨u :: inline, by rw [heq]; rfl, by simpa using ⟨ht, hall⟩⟩
      | node k cs => cases ht
    · exact ⟨[], rfl, by simp⟩

/-- Only trivia that trails the anchor stands between it and what is inserted. -/
theorem insertAfter_split (left right : List Tree) (x n : Tree) (lead : List Token) :
    ∃ inline more, right = leaves inline ++ more ∧ (∀ u ∈ inline, u.isInlineTrivia = true) ∧
      (containsNewline lead = false → inline = []) ∧
      insertAfter (left ++ x :: right) left.length lead n =
        left ++ x :: (leaves inline ++ (leaves lead ++ n :: more)) := by
  have htake : (left ++ x :: right).take (left.length + 1) = left ++ [x] := by
    rw [List.append_cons, List.take_left' (by simp)]
  have hdrop : (left ++ x :: right).drop (left.length + 1) = right := by
    rw [List.append_cons, List.drop_left' (by simp)]
  rw [insertAfter, htake, hdrop]
  split
  · rename_i hnewline
    obtain ⟨inline, heq, hall⟩ := takeWhile_isInlineTrivia right
    refine ⟨inline, right.dropWhile isInlineTrivia, ?_, hall, ?_, ?_⟩
    · rw [← heq, List.takeWhile_append_dropWhile]
    · intro hnone
      rw [hnone] at hnewline
      cases hnewline
    · rw [heq]
      simp
  · exact ⟨[], right, rfl, by simp, fun _ => rfl, by simp [leaves]⟩

theorem filter_insertAfter {kind : NodeKind} (left right : List Tree) (x : Tree) {n : Tree}
    (lead : List Token) (hn : n.isNode kind = true) :
    (insertAfter (left ++ x :: right) left.length lead n).filter (Tree.isNode kind) =
      (left ++ [x]).filter (Tree.isNode kind) ++ n :: right.filter (Tree.isNode kind) := by
  obtain ⟨inline, more, rfl, _, _, heq⟩ := insertAfter_split left right x n lead
  rw [heq, List.append_cons]
  simp only [List.filter_append, Tree.filter_isNode_leaves, List.nil_append,
    List.filter_cons_of_pos hn]

/-! ## The comma behind the anchor -/

section Separator

variable {budget : Nat} {kind : NodeKind} {separated : Bool} {e : Tree}

theorem withSeparator_eq (h : Element (Operand budget) kind separated e) :
    (separated = true ∧ withSeparator e = e ∧ ∃ ts u, e.tokens = ts ++ [u] ∧ u.kind = .comma) ∨
      (separated = false ∧ withSeparator e = .node kind (e.children ++ [commaToken]) ∧
        Ends e.tokens) := by
  cases h with
  | bare hlabel hvalue =>
    rename_i label value
    have hlast : hasSeparator (.node kind (leaves label ++ [value])) = false := by
      rw [hasSeparator, Tree.children_node, List.getLast?_concat]
      cases value with
      | token u => cases hvalue.isExpr
      | node k cs => exact Tree.isToken_node ..
    refine .inr ⟨rfl, ?_, ?_⟩
    · rw [withSeparator, hlast]
      rfl
    · rw [Tree.tokens_node, Tree.tokensList_append, Tree.tokensList_cons, Tree.tokensList_nil,
        List.append_nil]
      exact (hvalue.ends Operand.ends).append _
  | separated hlabel hvalue hbefore hcomma =>
    rename_i label before value comma
    refine .inl ⟨rfl, ?_, ?_⟩
    · rw [withSeparator, if_pos]
      rw [hasSeparator, Tree.children_node, List.getLast?_concat]
      exact beq_iff_eq.2 (by rw [Tree.kind, hcomma])
    · exact ⟨label ++ (value.tokens ++ before), comma, by simp, hcomma⟩

theorem element_withSeparator (h : Element (Operand budget) kind separated e) :
    Element (Operand budget) kind true (withSeparator e) := by
  rcases withSeparator_eq h with ⟨rfl, heq, _⟩ | ⟨rfl, heq, _⟩
  · rw [heq]
    exact h
  · rw [heq]
    cases h with
    | bare hlabel hvalue =>
      have hcomma : Token.kind ⟨.comma, [',']⟩ = .comma := rfl
      simpa [leaves, commaToken] using Element.separated hlabel hvalue allTrivia_nil hcomma

theorem relexes_withSeparator (h : Element (Operand budget) kind separated e) :
    Relexes e.tokens (withSeparator e).tokens ∧
      ∃ ts u, (withSeparator e).tokens = ts ++ [u] ∧ u.kind = .comma := by
  rcases withSeparator_eq h with ⟨_, heq, hcomma⟩ | ⟨_, heq, ts, u, htokens, hu⟩
  · rw [heq]
    exact ⟨.refl _, hcomma⟩
  · have hchildren : Tree.tokensList e.children = ts ++ [u] := by
      rw [← htokens, Tree.eq_node_of_isNode h.isNode]
      rfl
    rw [heq, Tree.tokens_node, Tree.tokensList_append, hchildren, htokens]
    refine ⟨?_, ts ++ [u], ⟨.comma, [',']⟩, rfl, rfl⟩
    rw [List.append_assoc]
    exact (relexes_comma hu).append_left ts

theorem isNode_withSeparator (e : Tree) (kind : NodeKind) :
    (withSeparator e).isNode kind = e.isNode kind := by
  cases e with
  | token t => rfl
  | node k cs =>
    rw [withSeparator]
    split <;> simp

theorem expr?_withSeparator (e : Tree) : (withSeparator e).expr? = e.expr? := by
  cases e with
  | token t => rfl
  | node k cs =>
    rw [withSeparator]
    split
    · rfl
    · simp [Tree.expr?, commaToken]

theorem label?_withSeparator (e : Tree) : (withSeparator e).label? = e.label? := by
  cases e with
  | token t => rfl
  | node k cs =>
    rw [withSeparator]
    split
    · rfl
    · have hcolon : (Source.Tree.node k (cs ++ [commaToken])).hasColon =
          (Source.Tree.node k cs).hasColon := by
        simp [Tree.hasColon, Tree.tokenOf?, commaToken]
      rw [Tree.label?, Tree.label?, hcolon]
      split
      · rename_i h
        rw [Tree.firstToken?, Tree.firstToken?, Tree.tokens_node, Tree.tokens_node,
          Tree.tokensList_append]
        obtain ⟨u, hfind⟩ := Option.isSome_iff_exists.1 h
        obtain ⟨t, ht, hu⟩ := List.mem_filterMap.1 (List.mem_of_find?_eq_some hfind)
        obtain ⟨left, right, rfl⟩ := List.append_of_mem ht
        cases t with
        | token v => cases htokens : Tree.tokensList left <;> simp [htokens]
        | node k cs => cases hu
      · rfl

end Separator

/-! ## The list after an insertion -/

section Insert

variable {budget : Nat} {whole kind : NodeKind} {opening close : TokenKind}
  {left right : List Tree} {e n : Tree}

/-- A new element before the rest of a list, which has a comma if there are others in the rest. -/
theorem elements_insert {inline lead : List Token} {more : List Tree}
    (h : Elements (Operand budget) kind close (leaves inline ++ more))
    (hclose : close.isTrivia = false) (hinline : ∀ u ∈ inline, u.isInlineTrivia = true)
    (hlead : AllTrivia lead)
    (hn : Element (Operand budget) kind ((leaves inline ++ more).any (Tree.isNode kind)) n) :
    Elements (Operand budget) kind close (leaves inline ++ (leaves lead ++ n :: more)) := by
  have hinline : AllTrivia inline := fun u hu => (Bool.and_eq_true_iff.1 (hinline u hu)).1
  have hnone : (leaves inline).any (Tree.isNode kind) = false := by simp [leaves]
  have hmore := h.of_trivia hclose hinline
  refine .trivia hinline (.trivia hlead ?_)
  rw [List.any_append, hnone, Bool.false_or] at hn
  cases hany : more.any (Tree.isNode kind) with
  | true =>
    rw [hany] at hn
    exact .next allTrivia_nil hn hmore
  | false =>
    rw [hany] at hn
    obtain ⟨behind, t, hbehind, ht, rfl⟩ := hmore.eq_of_all_leaves hany
    exact .last allTrivia_nil hn hbehind ht

/-- Behind an element is the rest of a list, and any other rest may stand behind it and a comma. -/
theorem delimited_behind
    (h : Delimited (Operand budget) whole kind opening close (.node whole (left ++ e :: right)))
    (he : e.isNode kind = true) :
    Elements (Operand budget) kind close right ∧
      ∀ trees, Elements (Operand budget) kind close trees →
        Delimited (Operand budget) whole kind opening close
          (.node whole (left ++ withSeparator e :: trees)) := by
  obtain ⟨hleft, ⟨hbare, behind, t, hbehind, ht, rfl⟩ | ⟨hsep, hright⟩⟩ := h.split he
  · exact ⟨.close hbehind ht, fun trees htrees =>
      hleft _ (.next allTrivia_nil (element_withSeparator hbare) htrees)⟩
  · exact ⟨hright, fun trees htrees =>
      hleft _ (.next allTrivia_nil (element_withSeparator hsep) htrees)⟩

theorem delimited_insertAfter {lead : List Token}
    (h : Delimited (Operand budget) whole kind opening close (.node whole (left ++ e :: right)))
    (hclose : close.isTrivia = false) (he : e.isNode kind = true) (hlead : AllTrivia lead)
    (hn : Element (Operand budget) kind (right.any (Tree.isNode kind)) n) :
    Delimited (Operand budget) whole kind opening close
      (.node whole (insertAfter (left ++ withSeparator e :: right) left.length lead n)) := by
  obtain ⟨inline, more, rfl, hinline, _, hinsert⟩ :=
    insertAfter_split left right (withSeparator e) n lead
  obtain ⟨hright, hfill⟩ := delimited_behind h he
  rw [hinsert]
  exact hfill _ (elements_insert hright hclose hinline hlead hn)

def LeadsIn (u : Token) (lead : List Token) : Prop :=
  (∃ layout level, lead = Layout.newLine layout level) ∨ (lead = oneSpace ∧ u.kind = .comma)

theorem allTrivia_newLine (layout : Layout) (level : Nat) : AllTrivia (layout.newLine level) := by
  intro v hv
  rw [Layout.newLine, newlineAndIndent, List.mem_cons] at hv
  rcases hv with rfl | hv
  · rfl
  · split at hv
    · cases hv
    · rw [List.mem_singleton.1 hv]
      rfl

theorem LeadsIn.allTrivia {u : Token} {lead : List Token} (h : LeadsIn u lead) :
    AllTrivia lead := by
  rcases h with ⟨layout, level, rfl⟩ | ⟨rfl, _⟩
  · exact allTrivia_newLine layout level
  · intro v hv
    rw [List.mem_singleton.1 hv]
    rfl

/-- Only trivia and the delimiter are behind the last element of a list. -/
theorem follows_of_no_element {inline : List Token} {more : List Tree}
    (h : Elements (Operand budget) kind close (leaves inline ++ more))
    (hclose : close.isClosing = true) (hinline : AllTrivia inline)
    (hnone : (leaves inline ++ more).any (Tree.isNode kind) = false) :
    Follows (Tree.tokensList more) := by
  have htrivia : close.isTrivia = false := by cases close <;> first | rfl | cases hclose
  rw [List.any_append, Bool.or_eq_false_iff] at hnone
  obtain ⟨behind, t, hbehind, ht, rfl⟩ := (h.of_trivia htrivia hinline).eq_of_all_leaves hnone.2
  have hfollows : Follows (behind ++ [t]) :=
    follows_of_trivia hbehind (by rw [ht, followsValue, hclose, Bool.or_true])
  simpa using hfollows

/-- The seams are behind the anchor, or behind the trivia that trails it, and behind what is
inserted. -/
theorem relexes_insertAfter {x : Tree} {lead ts : List Token} {u : Token}
    (hx : x.tokens = ts ++ [u]) (hu : endsLine u = true) (hlead : LeadsIn u lead)
    (hstops : ∀ rest, Stops isSpace (textOf n.tokens ++ rest))
    (hn : ∀ {inline more}, right = leaves inline ++ more → AllTrivia inline →
      CutBefore n.tokens (Tree.tokensList more)) :
    Relexes (Tree.tokensList (left ++ x :: right))
      (Tree.tokensList (insertAfter (left ++ x :: right) left.length lead n)) := by
  obtain ⟨inline, more, hright, hinline, hnone, hinsert⟩ := insertAfter_split left right x n lead
  have hcut := hn hright fun v hv => (Bool.and_eq_true_iff.1 (hinline v hv)).1
  obtain ⟨us, v, hlast, hv⟩ : ∃ us v, ts ++ [u] ++ inline = us ++ [v] ∧
      Relexes (v :: Tree.tokensList more) (v :: (lead ++ n.tokens ++ Tree.tokensList more)) := by
    rcases hlead with ⟨layout, level, rfl⟩ | ⟨rfl, hcomma⟩
    · rcases List.eq_nil_or_concat inline with rfl | ⟨init, v, rfl⟩
      · exact ⟨ts, u, by simp, relexes_newLine layout level hu hstops hcut⟩
      · refine ⟨ts ++ [u] ++ init, v, by simp, relexes_newLine layout level ?_ hstops hcut⟩
        rw [endsLine, hinline v (by simp), Bool.or_true]
    · rw [hnone rfl]
      exact ⟨ts, u, by simp, relexes_oneSpace hcomma hstops hcut⟩
  have hsplit (tail : List Token) : Tree.tokensList left ++ us ++ v :: tail =
      Tree.tokensList left ++ (x.tokens ++ (inline ++ tail)) := by
    have hlast : x.tokens ++ inline = us ++ [v] := by rw [hx, hlast]
    rw [← List.append_assoc x.tokens, hlast]
    simp
  have hseam := hv.append_left (Tree.tokensList left ++ us)
  rw [hsplit, hsplit] at hseam
  rw [hinsert, hright]
  simpa using hseam

end Insert

end PackageManifest.Proofs.Edits
