import PackageManifest.Proofs.Grammar.Replacing
import PackageManifest.Proofs.Navigation
import PackageManifest.Proofs.Revisions

/-!
# Edited manifests are read again

Main statement: `parse_of_permitted`. A manifest that is the tree of its own text is so again after
an edit of any array or call in it, however deep this stands, unless the text nests too deep now.

An expression of a manifest stands in the value of a binding (`exists_value`). The rules by which an
array or a call stands there do not tell it from what an edit makes of it, and what is around keeps
its tokens (`exists_room`). Expressions may nest deeper afterwards, so the grammar is used without
its limit, which the parser alone enforces.
-/

namespace PackageManifest.Proofs.Rereading

open Source Grammar Lexing Edits Revisions

/-- A manifest is the tree that its text parses to, or else it nests too deep to be parsed. -/
def Rereads (root : Tree) : Prop :=
  parse root.print = .ok root ∨
    ∃ e, parse root.print = .error e ∧ e.cause = .tooDeep maxNesting

theorem rereads_of_reads {children : List Tree} {budget : Nat}
    (hlexed : Lexed (Tree.tokensList children) [])
    (h : Reads tooDeepAt budget (items (Tree.tokensList children)) children) :
    Rereads (.node .sourceFile children) := by
  rcases h with h | ⟨_, ahead, h⟩
  · exact .inl (faithful_iff.2 ⟨children, rfl, h, hlexed⟩)
  · right
    rw [parse, Tree.print, String.toList_ofList, parseText, Tree.text, Tree.tokens_node,
      faults_of_lexed hlexed, tokens_of_lexed hlexed]
    simp only [parseTokens, h]
    exact ⟨_, rfl, rfl⟩

/-! ## Expressions of a manifest -/

/-- There is one way to split a list at the only entry without `p`. -/
theorem split_unique {p : Tree → Prop} {left right left' right' : List Tree} {c c' : Tree}
    (h : left ++ c :: right = left' ++ c' :: right') (hleft : ∀ t ∈ left, p t)
    (hright : ∀ t ∈ right, p t) (hc : ¬p c') : left = left' ∧ c = c' ∧ right = right' := by
  rcases List.append_eq_append_iff.1 h with ⟨inner, rfl, heq⟩ | ⟨inner, rfl, heq⟩
  · cases inner with
    | nil =>
      obtain ⟨rfl, rfl⟩ := List.cons.inj heq
      exact ⟨(List.append_nil _).symm, rfl, rfl⟩
    | cons t inner =>
      obtain ⟨rfl, rfl⟩ := List.cons.inj heq
      exact absurd (hright c' (by simp)) hc
  · cases inner with
    | nil =>
      obtain ⟨rfl, rfl⟩ := List.cons.inj heq
      exact ⟨List.append_nil _, rfl, rfl⟩
    | cons t inner =>
      obtain ⟨rfl, rfl⟩ := List.cons.inj heq
      exact absurd (hleft c' (by simp)) hc

/-- An expression of a binding stands in its value. -/
theorem binding_at {b : Binding} {value old : Tree} {more : List Token} {path : List Nat}
    (h : b.Binds value more) (hget : (b.tree value).get? path = some old)
    (hold : old.isExpr = true) :
    ∃ inner, value.get? inner = some old ∧
      ∀ new, (b.tree value).set path new = b.tree (value.set inner new) := by
  cases path with
  | nil =>
    obtain rfl := Option.some.inj hget
    cases hold
  | cons i path =>
    obtain ⟨c, hc, hinner⟩ := Option.bind_eq_some_iff.1 hget
    have hexpr : ¬NoExpr c := fun hnone => by
      rw [hnone path old hinner] at hold
      cases hold
    obtain ⟨left, right, hsplit, hmodify⟩ := modify_at hc
    have hfront : ∀ t ∈ b.front ++ leaves (b.sign :: b.blank), NoExpr t :=
      List.forall_mem_append.2 ⟨h.noExpr, noExpr_leaves _⟩
    have hchildren (value : Tree) :
        b.children value = (b.front ++ leaves (b.sign :: b.blank)) ++ value :: leaves b.last := by
      simp [Binding.children, leaves]
    rw [hchildren] at hsplit
    obtain ⟨rfl, rfl, rfl⟩ := split_unique hsplit hfront (noExpr_leaves _) hexpr
    refine ⟨path, hinner, fun new => ?_⟩
    rw [Binding.tree, Tree.set, hmodify, Binding.tree, hchildren]

/-- An expression of a manifest stands in the value of a binding. With another value whose tokens
are cut in the same way the manifest is read again. -/
theorem exists_value {root old : Tree} {path : List Nat} (hroot : Faithful root)
    (hget : root.get? path = some old) (hold : old.isExpr = true) :
    ∃ value inner, Expression value ∧ value.get? inner = some old ∧
      ∀ {budget new}, Sequence (Operand budget) (value.set inner new) →
        Relexes old.tokens new.tokens → Rereads (root.set path new) := by
  obtain ⟨after, htokens, hchanged⟩ := Tree.tokens_set hget
  obtain ⟨children, rfl, hitems, hlexed⟩ := faithful_iff.1 hroot
  cases path with
  | nil =>
    obtain rfl := Option.some.inj hget
    cases hold
  | cons i path =>
    obtain ⟨c, hc, hinner⟩ := Option.bind_eq_some_iff.1 hget
    have hbinding : c.isNode .variableDecl = true := by
      refine (items_noExpr hitems c (List.mem_of_getElem? hc)).resolve_right fun hnone => ?_
      rw [hnone path old hinner] at hold
      cases hold
    obtain ⟨left, right, rfl, hmodify⟩ := modify_at hc
    obtain ⟨b, value, rfl, hbinds, hagain⟩ := items_rebind hitems hbinding
    obtain ⟨inner, hvalue, hset⟩ := binding_at hbinds hinner hold
    refine ⟨value, inner, hbinds.expression, hvalue, fun {budget new} hnew hrelexes => ?_⟩
    have hlexed' := hrelexes _ _ _ (htokens ▸ hlexed)
    have hroot' : (Source.Tree.node .sourceFile (left ++ b.tree value :: right)).set (i :: path)
        new = .node .sourceFile (left ++ b.tree (value.set inner new) :: right) := by
      rw [Tree.set, hmodify, hset]
    rw [← hchanged, hroot'] at hlexed'
    rw [hroot']
    exact rereads_of_reads hlexed' (hagain hnew)

/-! ## Arrays and calls -/

/-- Where an array or a call stands in a manifest, any operand may stand that resembles it and whose
tokens are cut in the same way. -/
theorem exists_room {root : Tree} {site : Site} {kind : NodeKind} (hroot : Faithful root)
    (hsite : Found root kind site) (hkind : kind = .arrayExpr ∨ kind = .callExpr) (needed : Nat) :
    ∃ room, needed ≤ room ∧ Operand (room + 1) site.tree ∧
      ∀ {new}, Operand (room + 1) new → Resembles site.tree new →
        Relexes site.tree.tokens new.tokens → Rereads (root.set site.path new) := by
  have hexpr : site.tree.isExpr = true := by
    rw [Tree.eq_node_of_isNode hsite.isNode]
    rcases hkind with rfl | rfl <;> rfl
  obtain ⟨value, inner, hvalue, hget, hagain⟩ := exists_value hroot hsite.get? hexpr
  obtain ⟨room, hroom, hold, hfill⟩ := hvalue.replace hget hsite.isNode hkind needed
  refine ⟨room, hroom, hold, fun hnew hsame hrelexes => ?_⟩
  obtain ⟨_, hset⟩ := hfill _ hnew hsame
  exact hagain hset hrelexes

theorem rereads_array {root new : Tree} {site : Site} {exprs : List Tree} (needed : Nat)
    (hroot : Faithful root) (hsite : Found root .arrayExpr site)
    (h : ∀ {budget}, needed ≤ budget → ArrayLiteral (Operand budget) site.tree →
      Rewrites budget site.tree new exprs) : Rereads (root.set site.path new) := by
  obtain ⟨room, hroom, hold, hfill⟩ := exists_room hroot hsite (.inl rfl) needed
  have hrewrites := h hroom (Chain.arrayLiteral hold hsite.isNode)
  exact hfill (.primary (.array hrewrites.literal))
    (.of_isNode hsite.isNode hrewrites.literal.isNode (by decide)) hrewrites.relexes

/-- The arguments of a call may become any other ones with tokens that are cut in the same way.
What is replaced may be a part of the list, at the end of `more`. -/
theorem rereads_list {root new : Tree} {call list : Site} {path : List Nat} (needed : Nat)
    (hroot : Faithful root) (hcall : Found root .callExpr call)
    (hlist : call.argumentList? = some list)
    (h : ∀ {budget}, needed ≤ budget → Arguments (Operand budget) .lParen .rParen list.tree →
      ∃ more, path = list.path ++ more ∧
        Arguments (Operand budget) .lParen .rParen (list.tree.set more new) ∧
        Relexes list.tree.tokens (list.tree.set more new).tokens) :
    Rereads (root.set path new) := by
  obtain ⟨room, hroom, hold, hfill⟩ := exists_room hroot hcall (.inr rfl) needed
  have hiscall : IsCall room (besides call.tree) call.tree := ⟨hold, hcall.isNode, rfl⟩
  obtain ⟨build, q, hleads, _⟩ := argumentList_leads hiscall hlist
  obtain ⟨more, rfl, hargs, hrelexes⟩ := h hroom hleads.holds
  have hfound : root.get? list.path = some list.tree := Site.get?_child? hcall.get? hlist
  have hget : call.tree.get? q = some list.tree := by
    rwa [hleads.path_eq, Tree.get?_append, hcall.get?] at hfound
  rw [Tree.set_append hfound, hleads.path_eq, Tree.set_append hcall.get?, hleads.set_eq]
  refine hfill (hleads.keeps hargs).operand ?_ ?_
  · have hsame := Resembles.of_isNode hleads.holds.isNode hargs.isNode (by decide)
    have hset := hsame.set hget
    rwa [hleads.set_eq] at hset
  · rw [hleads.tree_eq]
    exact hleads.relexes hrelexes

/-! ## New expressions -/

theorem readable_of_supplied {root e : Tree} (hroot : Faithful root) (h : Supplied root e) :
    ∃ budget, Readable budget e := by
  cases h with
  | @snippet text _ hsnippet =>
    unfold Snippet.expression at hsnippet
    split at hsnippet
    · rename_i hparse
      cases hsnippet
      obtain ⟨hfaults, hread⟩ := RoundTrip.parseExpressionText_eq_ok_iff.1 hparse
      obtain ⟨hexpr, _⟩ := expression_sound hread
      have hlexed := lexed_tokens hfaults
      rw [← RoundTrip.tokens_of_parseExpressionText hparse] at hlexed
      exact ⟨maxNesting, hexpr, [], hlexed⟩
    · cases hsnippet
  | reused hget hexpr =>
    obtain ⟨value, inner, hvalue, hinner, _⟩ := exists_value hroot hget hexpr
    obtain ⟨after, htokens, _⟩ := Tree.tokens_set hget
    obtain ⟨_, _, _, hlexed⟩ := faithful_iff.1 hroot
    have hwide : Part.sequence.Holds maxNesting value := hvalue
    obtain ⟨part, room, _, hpart, _⟩ := Part.at hwide hinner (Tree.token?_of_isExpr hexpr)
    obtain ⟨budget, hsequence⟩ := Part.exists_sequence hpart hexpr
    exact ⟨budget, hsequence, lexed_middle (htokens ▸ hlexed)⟩

theorem exists_budget {exprs : List Tree} (h : ∀ e ∈ exprs, ∃ budget, Readable budget e) :
    ∃ budget, ∀ e ∈ exprs, Readable budget e := by
  induction exprs with
  | nil => exact ⟨0, fun e he => (List.not_mem_nil he).elim⟩
  | cons e exprs ih =>
    obtain ⟨⟨first, hfirst⟩, hmore⟩ := List.forall_mem_cons.1 h
    obtain ⟨bound, hbound⟩ := ih hmore
    refine ⟨max first bound, List.forall_mem_cons.2 ⟨hfirst.mono (Nat.le_max_left ..), ?_⟩⟩
    exact fun e he => (hbound e he).mono (Nat.le_max_right ..)

/-! ## Edits -/

/-- A text that is one identifier or keyword. -/
def IsName (name : List Char) : Prop :=
  faults name = [] ∧ ∃ t, tokens name = [t] ∧ t.kind.isNameLike = true

/-- The edits of arrays and calls of a tree, whatever the layout and the level they are made with. A
new argument is given a name for its label. -/
inductive Permitted (t : Tree) : Edit → Prop
  | separate {array : Site} : Found t .arrayExpr array → Permitted t (Edit.Array.separate array)
  | append {array : Site} {expr : Tree} (layout : Layout) (level : Nat) :
      Found t .arrayExpr array → Supplied t expr →
      Permitted t (Edit.Array.append layout array expr level)
  | reflow {array : Site} {exprs : List Tree} (layout : Layout) (level : Nat) :
      Found t .arrayExpr array → (∀ e ∈ exprs, Supplied t e) →
      Permitted t (Edit.Array.reflow layout array level exprs)
  | insert {layout : Layout} {call : Site} {candidates : List String} {label : String}
      {value : Tree} {ownLine : Bool} {edit : Edit} :
      Found t .callExpr call → IsName label.toList → Supplied t value →
      Edit.Argument.insertAfterFirst layout t call candidates label value ownLine = .ok edit →
      Permitted t edit
  | replace {call : Site} {label : String} {value : Tree} {edit : Edit} :
      Found t .callExpr call → Supplied t value →
      Edit.Argument.replace? call label value = some edit → Permitted t edit

theorem rereads_of_edit {t : Tree} {edit : Edit} (ht : Faithful t) (hedit : Permitted t edit) :
    Rereads (t.set edit.site.path edit.replacement) := by
  cases hedit with
  | separate harray => exact rereads_array 0 ht harray fun _ hliteral => separate_rewrites hliteral
  | append layout level harray hexpr =>
    obtain ⟨needed, hneeded⟩ := readable_of_supplied ht hexpr
    exact rereads_array needed ht harray fun hle hliteral =>
      append_rewrites layout level hliteral (hneeded.mono hle)
  | reflow layout level harray hexprs =>
    obtain ⟨needed, hneeded⟩ := exists_budget fun e he => readable_of_supplied ht (hexprs e he)
    exact rereads_array needed ht harray fun hle hliteral =>
      reflow_rewrites layout level hliteral fun e he => (hneeded e he).mono hle
  | @insert layout call candidates label value ownLine _ hcall hlabel hvalue hinsert =>
    obtain ⟨needed, hneeded⟩ := readable_of_supplied ht hvalue
    obtain ⟨hfaults, name, htokens, hname⟩ := hlabel
    have hword := isWord_of_tokens hfaults htokens hname
    cases hlist : call.argumentList? with
    | none =>
      rw [Edit.Argument.insertAfterFirst, hlist] at hinsert
      cases hinsert
    | some list =>
      refine rereads_list needed ht hcall hlist fun hle hargs => ?_
      rcases insertAfterFirst_cases layout t candidates label ownLine hlist hargs
          (hneeded.mono hle) hword with
        ⟨_, herror⟩ | ⟨c, new, _, hok, hnew, hrelexes, _⟩
      · rw [herror] at hinsert
        cases hinsert
      · obtain rfl := Except.ok.inj (hok.symm.trans hinsert)
        refine ⟨[], (List.append_nil _).symm, ?_, ?_⟩
        · rwa [Tree.set]
        · rwa [Tree.set]
  | @replace call label value _ hcall hvalue hreplace =>
    obtain ⟨needed, hneeded⟩ := readable_of_supplied ht hvalue
    obtain ⟨old, hold, rfl⟩ := Option.map_eq_some_iff.1 hreplace
    cases hlist : call.argumentList? with
    | none =>
      rw [Site.argumentValue?, Site.argument?_eq, hlist] at hold
      cases hold
    | some list =>
      exact rereads_list needed ht hcall hlist fun hle hargs =>
        replace?_cases hlist hargs hold (hneeded.mono hle)

/-- An edit of an array or a call of a parsed manifest leads to one that is parsed again, or to one
that nests too deep, but never to another tree or another error. -/
theorem parse_of_permitted {t t' : Tree} {edit : Edit} (ht : parse t.print = .ok t)
    (hedit : Permitted t edit) (happly : edit.applyTo? t = some t') :
    parse t'.print = .ok t' ∨
      ∃ e, parse t'.print = .error e ∧ e.cause = .tooDeep maxNesting := by
  rw [Edit.applyTo?, Option.ite_none_right_eq_some] at happly
  rw [← Option.some.inj happly.2]
  exact rereads_of_edit ht hedit

/-- An argument with a keyword for its label goes behind one that a comment trails. -/
theorem parse_of_permitted_behind_comment :
    ∃ t call value edit t', parse "let p = -f(a: 1 // one\n).h" = .ok t ∧
      Snippet.expression ['x'] = .ok value ∧
      Edit.Argument.insertAfterFirst ⟨.spaces 2, .lf⟩ t call ["a"] "let" value false = .ok edit ∧
      edit.applyTo? t = some t' ∧ t'.print = "let p = -f(a: 1, // one\n  let: x\n).h" ∧
      (parse t'.print = .ok t' ∨
        ∃ e, parse t'.print = .error e ∧ e.cause = .tooDeep maxNesting) := by
  have hrun : ((parse "let p = -f(a: 1 // one\n).h").toOption.bind fun t =>
      (t.get? [0, 6, 1, 0]).bind fun call => (Snippet.expression ['x']).toOption.bind fun value =>
        (Edit.Argument.insertAfterFirst ⟨.spaces 2, .lf⟩ t ⟨[0, 6, 1, 0], call⟩ ["a"] "let" value
          false).toOption.bind fun edit => (edit.applyTo? t).map fun t' =>
            t.print == "let p = -f(a: 1 // one\n).h" && call.isNode .callExpr &&
              t'.print == "let p = -f(a: 1, // one\n  let: x\n).h") = some true := by
    decide +kernel
  have hlabel : IsName "let".toList :=
    ⟨by decide +kernel, ⟨.letKw, "let".toList⟩, by decide +kernel⟩
  simp only [Option.bind_eq_some_iff, Option.map_eq_some_iff, Bool.and_eq_true, beq_iff_eq] at hrun
  obtain ⟨t, ht, call, hget, value, hvalue, edit, hinsert, t', happly, ⟨hprint, hnode⟩, hresult⟩ :=
    hrun
  have hparse := RoundTrip.eq_ok_of_toOption ht
  have hsnippet := RoundTrip.eq_ok_of_toOption hvalue
  have hedit := RoundTrip.eq_ok_of_toOption hinsert
  have hcall : Found t .callExpr ⟨[0, 6, 1, 0], call⟩ := ⟨hget, hnode⟩
  exact ⟨t, ⟨[0, 6, 1, 0], call⟩, value, edit, t', hparse, hsnippet, hedit, happly, hresult,
    parse_of_permitted (hprint.symm ▸ hparse) (.insert hcall hlabel (.snippet hsnippet) hedit)
      happly⟩

end PackageManifest.Proofs.Rereading
