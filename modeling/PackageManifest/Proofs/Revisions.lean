import Mathlib.Logic.Relation
import PackageManifest.Addition
import PackageManifest.Proofs.Edits.Shapes

/-!
# Trees under revision

Main statement: `revised_wellShaped`. A parsed manifest keeps its shape through any number of
additions and edits. An addition is a run of edits in one layout (`run_of_add`), none of which could
not be made by itself (`edited_of_add`), so it is enough that each edit replaces a node by another
one of its kind that has its shape.
-/

namespace PackageManifest.Proofs.Revisions

open Source Grammar Shapes Edits PackageManifest.Addition

/-! ## Edits that can be made -/

structure Found (t : Tree) (kind : NodeKind) (s : Site) : Prop where
  get? : t.get? s.path = some s.tree
  isNode : s.tree.isNode kind = true

/-- Expressions to put into a tree: those that a text is parsed to and those of the tree itself. -/
inductive Supplied (t : Tree) : Tree → Prop
  | snippet {text : List Char} {e : Tree} : Snippet.expression text = .ok e → Supplied t e
  | reused {path : List Nat} {e : Tree} :
      t.get? path = some e → e.isExpr = true → Supplied t e

/-- The edits of a tree, whatever the layout, the level and the texts they are made with. -/
inductive Proposed (t : Tree) : Edit → Prop
  | separate {array : Site} : Found t .arrayExpr array → Proposed t (Edit.Array.separate array)
  | append {array : Site} {expr : Tree} (layout : Layout) (level : Nat) :
      Found t .arrayExpr array → Supplied t expr →
      Proposed t (Edit.Array.append layout array expr level)
  | reflow {array : Site} {exprs : List Tree} (layout : Layout) (level : Nat) :
      Found t .arrayExpr array → (∀ e ∈ exprs, Supplied t e) →
      Proposed t (Edit.Array.reflow layout array level exprs)
  | insert {layout : Layout} {call : Site} {candidates : List String} {label : String}
      {value : Tree} {ownLine : Bool} {edit : Edit} :
      Found t .callExpr call → Supplied t value →
      Edit.Argument.insertAfterFirst layout t call candidates label value ownLine = .ok edit →
      Proposed t edit
  | replace {call : Site} {label : String} {value : Tree} {edit : Edit} :
      Found t .callExpr call → Supplied t value →
      Edit.Argument.replace? call label value = some edit → Proposed t edit

inductive Edited (t : Tree) : Tree → Prop
  | refl : Edited t t
  | step {u v : Tree} {edit : Edit} :
      Edited t u → Proposed u edit → edit.applyTo? u = some v → Edited t v

/-! ## Edits keep the shape -/

section Shape

variable {t : Tree}

theorem path_ne_nil (h : Rooted t) {path : List Nat} {s : Tree} (hget : t.get? path = some s)
    (hs : s.isNode .sourceFile = false) : path ≠ [] := by
  rintro rfl
  obtain ⟨children, rfl, _⟩ := h
  cases hget
  cases hs

theorem isNode_of_isExpr {e : Tree} (h : e.isExpr = true) :
    e.isNode .sourceFile = false ∧ isItem e = false := by
  cases e with
  | token u => cases h
  | node kind children =>
    rw [Tree.isNode_node, isItem_node]
    cases kind <;> first | exact ⟨rfl, rfl⟩ | cases h

theorem Supplied.value (h : Rooted t) {e : Tree} (he : Supplied t e) : Value e := by
  cases he with
  | snippet hsnippet =>
    unfold Snippet.expression at hsnippet
    split at hsnippet
    · rename_i hparse
      cases hsnippet
      exact shaped_of_parseExpressionText hparse
    · cases hsnippet
  | reused hget hexpr =>
    exact ⟨h.get? hget (path_ne_nil h hget (isNode_of_isExpr hexpr).1), hexpr⟩

theorem Found.shaped (h : Rooted t) {kind : NodeKind} {s : Site} (hs : Found t kind s)
    (hkind : kind ≠ .sourceFile) : Shaped s.tree := by
  refine h.get? hs.get? (path_ne_nil h hs.get? ?_)
  rw [Tree.eq_node_of_isNode hs.isNode, Tree.isNode_node, beq_eq_false_iff_ne]
  exact hkind

theorem get?_argumentList? {call list : Site} (h : t.get? call.path = some call.tree)
    (hlist : call.argumentList? = some list) : Found t .argumentList list := by
  refine ⟨Site.get?_child? h hlist, ?_⟩
  have := List.find?_some hlist
  exact this

theorem get?_argumentValue? {call value : Site} {label : List Char}
    (h : t.get? call.path = some call.tree) (hvalue : call.argumentValue? label = some value) :
    t.get? value.path = some value.tree ∧ value.tree.isExpr = true := by
  obtain ⟨argument, hargument, hexpr⟩ := Option.bind_eq_some_iff.1 hvalue
  rw [Site.argument?_eq] at hargument
  obtain ⟨list, hlist, hargument⟩ := Option.bind_eq_some_iff.1 hargument
  have hargument := Site.get?_child? (get?_argumentList? h hlist).get? hargument
  refine ⟨Site.get?_child? hargument hexpr, ?_⟩
  have := List.find?_some hexpr
  exact this

theorem Found.plain {kind : NodeKind} {s : Site} (hs : Found t kind s)
    (hkind : kind ≠ .sourceFile ∧ isItemKind kind = false) :
    s.tree.isNode .sourceFile = false ∧ isItem s.tree = false := by
  rw [Tree.eq_node_of_isNode hs.isNode, Tree.isNode_node, isItem_node, beq_eq_false_iff_ne]
  exact hkind

/-- A node that stands in the tree, and is no element, is replaced by one that has its shape. -/
theorem rooted_of_applyTo? (h : Rooted t) {edit : Edit} {t' : Tree}
    (hget : t.get? edit.site.path = some edit.site.tree)
    (hplain : edit.site.tree.isNode .sourceFile = false ∧ isItem edit.site.tree = false)
    (hnew : Shaped edit.replacement) (happly : edit.applyTo? t = some t') : Rooted t' := by
  rw [Edit.applyTo?, Option.ite_none_right_eq_some] at happly
  obtain ⟨hkind, heq⟩ := happly
  rw [← Option.some.inj heq]
  exact h.set hget (path_ne_nil h hget hplain.1) hkind hplain.2 hnew

theorem Proposed.rooted (h : Rooted t) {edit : Edit} {t' : Tree} (hedit : Proposed t edit)
    (happly : edit.applyTo? t = some t') : Rooted t' := by
  cases hedit with
  | separate harray =>
    exact rooted_of_applyTo? h harray.get? (harray.plain (by decide))
      (separate_shaped (harray.shaped h (by decide)) harray.isNode) happly
  | append layout level harray hexpr =>
    exact rooted_of_applyTo? h harray.get? (harray.plain (by decide))
      (append_shaped layout level (harray.shaped h (by decide)) harray.isNode (hexpr.value h))
      happly
  | @reflow array exprs layout level harray hexprs =>
    exact rooted_of_applyTo? h harray.get? (harray.plain (by decide))
      (reflow_shaped layout array level fun e he => (hexprs e he).value h) happly
  | @insert layout call candidates label value ownLine _ hcall hvalue hinsert =>
    cases hlist : call.argumentList? with
    | none =>
      rw [Edit.Argument.insertAfterFirst, hlist] at hinsert
      cases hinsert
    | some list =>
      have hfound := get?_argumentList? hcall.get? hlist
      obtain ⟨hsite, hshaped⟩ := insertAfterFirst_shaped hlist
        (hfound.shaped h (by decide)) (hvalue.value h) hinsert
      refine rooted_of_applyTo? h ?_ ?_ hshaped happly
      · rw [hsite]
        exact hfound.get?
      · rw [hsite]
        exact hfound.plain (by decide)
  | @replace call label value _ hcall hvalue hreplace =>
    obtain ⟨old, hold, rfl⟩ := Option.map_eq_some_iff.1 hreplace
    obtain ⟨hget, hexpr⟩ := get?_argumentValue? hcall.get? hold
    exact rooted_of_applyTo? h hget (isNode_of_isExpr hexpr) (hvalue.value h).shaped happly

theorem Edited.rooted {t' : Tree} (h : Edited t t') (ht : Rooted t) : Rooted t' := by
  induction h with
  | refl => exact ht
  | step _ hproposed happly ih => exact hproposed.rooted ih happly

end Shape

/-! ## The edits of an addition -/

inductive Written : Tree → Prop
  | package {d : Dependency} {e : Tree} : Snippet.packageReference d = .ok e → Written e
  | product {product package : String} {e : Tree} :
      Snippet.productReference product package = .ok e → Written e
  | array {e : Tree} : Snippet.emptyArray = .ok e → Written e

/-- The edits that an addition makes of a tree in a layout. -/
inductive Made (layout : Layout) (t : Tree) : Edit → Prop
  | append {array : Site} {expr : Tree} (level : Nat) :
      Found t .arrayExpr array → Written expr →
      Made layout t (Edit.Array.append layout array expr level)
  | reflow {array : Site} {exprs : List Tree} (level : Nat) :
      Found t .arrayExpr array → (∀ e ∈ exprs, e ∈ array.tree.elementExprs ∨ Written e) →
      Made layout t (Edit.Array.reflow layout array level exprs)
  | insert {call : Site} {candidates : List String} {value : Tree} {ownLine : Bool} {edit : Edit} :
      Found t .callExpr call → Written value →
      Edit.Argument.insertAfterFirst layout t call candidates dependenciesLabel value ownLine =
        .ok edit →
      Made layout t edit

def Advances (layout : Layout) (t t' : Tree) : Prop :=
  ∃ edit, Made layout t edit ∧ edit.applyTo? t = some t'

abbrev Run (layout : Layout) : Tree → Tree → Prop := Relation.ReflTransGen (Advances layout)

theorem Written.supplied {t e : Tree} (h : Written e) : Supplied t e := by
  cases h with
  | package h => exact .snippet h
  | product h => exact .snippet h
  | array h => exact .snippet h

section Places

variable {t : Tree}

theorem found_packageCall {call : Site} (h : packageCall? t = some call) :
    Found t .callExpr call := by
  obtain ⟨binding, hbinding, hcall⟩ := Option.bind_eq_some_iff.1 h
  have hroot : t.get? t.site.path = some t.site.tree := by cases t <;> rfl
  refine ⟨Site.get?_child? (Site.get?_child? hroot hbinding) hcall, ?_⟩
  have hpackage : binding.tree.isPackageBinding = true := by
    have := List.find?_some hbinding
    exact this
  have hvalue : binding.tree.expr? = some call.tree := by
    rw [Tree.expr?, ← binding.child?_map, show binding.child? Tree.isExpr = some call from hcall]
    rfl
  rw [Tree.isPackageBinding, hvalue, Bool.and_eq_true] at hpackage
  exact (Bool.and_eq_true_iff.1 hpackage.2).1

theorem found_argumentArray {call array : Site} {label : String}
    (h : t.get? call.path = some call.tree) (harray : argumentArray? call label = some array) :
    Found t .arrayExpr array := by
  obtain ⟨hvalue, hnode⟩ := Option.filter_eq_some_iff.1 harray
  exact ⟨(get?_argumentValue? h hvalue).1, hnode⟩

theorem found_firstTarget {target : Site} (h : firstTarget? t = some target) :
    Found t .callExpr target := by
  unfold firstTarget? at h
  split at h
  · cases h
  · rename_i targets htargets
    split at h
    · obtain ⟨call, hcall, hvalue⟩ := Option.bind_eq_some_iff.1 htargets
      obtain ⟨hfirst, hnode⟩ := Option.filter_eq_some_iff.1 h
      obtain ⟨element, helement, hexpr⟩ := Option.bind_eq_some_iff.1 hfirst
      rw [Site.head?_elements] at helement
      have hget := (get?_argumentValue? (found_packageCall hcall).get? hvalue).1
      exact ⟨Site.get?_child? (Site.get?_child? hget helement) hexpr, hnode⟩
    · cases h

theorem relocate_eq_ok {α : Type} {what : String} {x : Option α} {a : α} :
    relocate what x = .ok a ↔ x = some a := by
  cases x <;> simp [relocate]

theorem found_targetArray {array : Site} (h : targetArray t = .ok array) :
    Found t .arrayExpr array := by
  unfold targetArray at h
  split at h
  · cases h
  · rename_i target htarget
    have hfound := found_firstTarget (relocate_eq_ok.1 htarget)
    exact found_argumentArray hfound.get? (relocate_eq_ok.1 h)

theorem get?_of_mem_elementExprs {array : Site} (h : t.get? array.path = some array.tree)
    {e : Tree} (he : e ∈ array.tree.elementExprs) :
    ∃ path, t.get? path = some e ∧ e.isExpr = true := by
  have get?_mem {path : List Nat} {s c : Tree} (hs : t.get? path = some s) (hc : c ∈ s.children) :
      ∃ i, t.get? (path ++ [i]) = some c := by
    obtain ⟨i, hi⟩ := List.mem_iff_getElem?.1 hc
    cases s with
    | token u => cases hc
    | node kind children =>
      refine ⟨i, ?_⟩
      rw [Tree.get?_append, hs, Option.bind_some, Tree.get?]
      rw [Tree.children_node] at hi
      simp [hi, Tree.get?]
  obtain ⟨element, helement, hexpr⟩ := List.mem_filterMap.1 he
  obtain ⟨i, hi⟩ := get?_mem h (List.mem_filter.1 helement).1
  obtain ⟨j, hj⟩ := get?_mem hi (List.mem_of_find?_eq_some hexpr)
  exact ⟨_, hj, List.find?_some hexpr⟩

theorem Made.proposed {layout : Layout} {edit : Edit} (h : Made layout t edit) :
    Proposed t edit := by
  cases h with
  | append level harray hexpr => exact .append layout level harray hexpr.supplied
  | reflow level harray hexprs =>
    refine .reflow layout level harray fun e he => ?_
    rcases hexprs e he with he | he
    · obtain ⟨path, hget, hexpr⟩ := get?_of_mem_elementExprs harray.get? he
      exact .reused hget hexpr
    · exact he.supplied
  | insert hcall hvalue hinsert => exact .insert hcall hvalue.supplied hinsert

theorem edited_of_run {layout : Layout} {t' : Tree} (h : Run layout t t') : Edited t t' := by
  induction h with
  | refl => exact .refl
  | tail _ hstep ih =>
    obtain ⟨edit, hmade, happly⟩ := hstep
    exact .step ih hmade.proposed happly

end Places

/-! ## An addition is a run of edits -/

section Runs

variable {layout : Layout} {o : Outcome}

theorem apply_run {edit : Edit} (h : Made layout o.tree edit) :
    Run layout o.tree (o.apply edit).tree := by
  unfold Outcome.apply
  split
  · exact .refl
  · change Run layout o.tree ((edit.applyTo? o.tree).getD o.tree)
    cases happly : edit.applyTo? o.tree with
    | none => exact .refl
    | some t => exact .single ⟨edit, h, happly⟩

theorem snippet_eq_ok {result : Except Snippet.Invalid Tree} {tree : Tree} :
    snippet result = .ok tree ↔ result = .ok tree := by
  cases result <;> simp [snippet]

theorem run_of_provide {call : Site} {candidates : List String} {o' : Outcome}
    (hcall : Found o.tree .callExpr call)
    (h : provideDependencies layout o call candidates = .ok (.ready o')) :
    Run layout o.tree o'.tree := by
  unfold provideDependencies at h
  split at h
  · split at h
    · cases h
      exact .refl
    · cases h
  · split at h
    · cases h
    · rename_i array harray
      split at h
      · rename_i edit hinsert
        cases h
        exact apply_run (.insert hcall (.array (snippet_eq_ok.1 harray)) hinsert)
      · cases h

theorem run_of_declareIn {array : Site} {d : Dependency} {r : Declaration}
    (harray : Found o.tree .arrayExpr array) (h : declareIn layout o array d = .ok r) :
    Run layout o.tree r.outcome.tree := by
  unfold declareIn at h
  split at h
  · cases h
    exact .refl
  · split at h
    · cases h
    · rename_i reference hreference
      cases h
      have hwritten : Written reference := .package (snippet_eq_ok.1 hreference)
      refine apply_run ?_
      split
      · exact .reflow _ harray fun e he => .inr (by rwa [List.mem_singleton.1 he])
      · exact .append _ harray hwritten

theorem run_of_declare {call : Site} {d : Dependency} {r : Declaration}
    (hcall : Found o.tree .callExpr call) (h : declare layout o call d = .ok r) :
    Run layout o.tree r.outcome.tree := by
  unfold declare at h
  split at h
  · cases h
  · cases h
    exact .refl
  · cases h
    exact .refl
  · rename_i o' hready
    split at h
    · cases h
    · rename_i array harray
      obtain ⟨call', hcall', harray⟩ := Option.bind_eq_some_iff.1 (relocate_eq_ok.1 harray)
      have hfound := found_argumentArray (found_packageCall hcall').get? harray
      exact (run_of_provide hcall hready).trans (run_of_declareIn hfound h)

theorem written_of_mem_pendingReferences {target : Site} {package : String}
    {products : List String} {notes : List Diagnostic} {references : List Tree}
    (h : pendingReferences target package products = .ok (notes, references)) :
    ∀ e ∈ references, Written e := by
  induction products generalizing notes references with
  | nil =>
    cases h
    exact fun e he => (List.not_mem_nil he).elim
  | cons product products ih =>
    unfold pendingReferences at h
    split at h
    · cases h
    · rename_i notes' references' hrest
      have ih := ih hrest
      split at h
      · cases h
        exact ih
      · split at h
        · cases h
        · rename_i reference hreference
          cases h
          exact List.forall_mem_cons.2 ⟨.product (snippet_eq_ok.1 hreference), ih⟩

theorem run_of_appendAll {level : Nat} {references : List Tree} {o' : Outcome}
    (hreferences : ∀ e ∈ references, Written e)
    (h : appendAll layout level o references = .ok o') : Run layout o.tree o'.tree := by
  induction references generalizing o with
  | nil =>
    cases h
    exact .refl
  | cons reference references ih =>
    obtain ⟨hreference, hmore⟩ := List.forall_mem_cons.1 hreferences
    unfold appendAll at h
    split at h
    · cases h
    · rename_i array harray
      exact (apply_run (.append level (found_targetArray harray) hreference)).trans (ih hmore h)

theorem run_of_addReferences {references : List Tree} {o' : Outcome}
    (hreferences : ∀ e ∈ references, Written e)
    (h : addReferences layout o references = .ok o') : Run layout o.tree o'.tree := by
  unfold addReferences at h
  split at h
  · cases h
  · rename_i array harray
    split at h
    · cases h
      refine apply_run (.reflow _ (found_targetArray harray) fun e he => ?_)
      exact (List.mem_append.1 he).imp_right (hreferences e)
    · exact run_of_appendAll hreferences h

theorem run_of_wireInto {target : Site} {package : String} {products : List String}
    {o' : Outcome} (htarget : Found o.tree .callExpr target)
    (h : wireInto layout o target package products = .ok o') : Run layout o.tree o'.tree := by
  unfold wireInto at h
  split at h
  · cases h
  · rename_i notes references hpending
    simp only at h
    split at h
    · cases h
      exact .refl
    · split at h
      · cases h
      · cases h
        exact .refl
      · cases h
        exact .refl
      · rename_i ready hready
        have hreferences := written_of_mem_pendingReferences hpending
        have hprovided := run_of_provide
          (o := { o with diagnostics := o.diagnostics ++ notes }) htarget hready
        exact hprovided.trans (run_of_addReferences hreferences h)

theorem run_of_wire {package : String} {products : List String} {o' : Outcome}
    (h : wire layout o package products = .ok o') : Run layout o.tree o'.tree := by
  unfold wire at h
  split at h
  · cases h
    exact .refl
  · split at h
    · cases h
      exact .refl
    · split at h
      · cases h
        exact .refl
      · split at h
        · cases h
          exact .refl
        · rename_i target htarget
          exact run_of_wireInto (found_firstTarget htarget) h

end Runs

theorem run_of_add {indent : Option IndentStyle} {t : Tree} {d : Dependency} {o : Outcome}
    (h : add indent t d = .ok o) : Run (layoutOf indent t) t o.tree := by
  simp only [add, addWith] at h
  split at h
  · cases h
    exact .refl
  · rename_i call hcall
    split at h
    · cases h
    · rename_i declared hdeclare
      cases h
      exact run_of_declare (found_packageCall hcall) hdeclare
    · rename_i declared name hdeclare
      exact (run_of_declare (found_packageCall hcall) hdeclare).trans (run_of_wire h)

theorem edited_of_add {indent : Option IndentStyle} {t : Tree} {d : Dependency} {o : Outcome}
    (h : add indent t d = .ok o) : Edited t o.tree :=
  edited_of_run (run_of_add h)

/-! ## Revisions -/

/-- The trees that additions and edits lead to. -/
inductive Revised (root : Tree) : Tree → Prop
  | start : Revised root root
  | added {t : Tree} {indent : Option IndentStyle} {d : Dependency} {o : Outcome} :
      Revised root t → add indent t d = .ok o → Revised root o.tree
  | edited {t t' : Tree} {edit : Edit} :
      Revised root t → Proposed t edit → edit.applyTo? t = some t' → Revised root t'

theorem Revised.rooted {root t : Tree} (h : Revised root t) (hroot : Rooted root) : Rooted t := by
  induction h with
  | start => exact hroot
  | added _ hadd ih => exact (edited_of_add hadd).rooted ih
  | edited _ hproposed happly ih => exact hproposed.rooted ih happly

/-- However often a parsed manifest is added to and edited, its lists, elements and nodes keep
their shape. -/
theorem revised_wellShaped {source : String} {root t : Tree} (hparse : parse source = .ok root)
    (h : Revised root t) : WellShaped t :=
  (h.rooted (rooted_of_parse hparse)).wellShaped

/-- An array gets a comma behind its only element, and then a dependency is added. -/
theorem revised_wellShaped_comma_and_dependency :
    ∃ root spaced o, parse "let p = Package(name: [1])" = .ok root ∧
      Revised root spaced ∧ spaced.print = "let p = Package(name: [1,])" ∧
      add none spaced ⟨"a", "https://h/a", .version "1", []⟩ = .ok o ∧ o.changed = true ∧
      WellShaped o.tree := by
  let array : Site := ⟨[0, 6, 1, 1, 3], .node .arrayExpr [.token ⟨.lBracket, ['[']⟩,
    .node .arrayElement [.node .numberLiteralExpr [.token ⟨.numberLit, ['1']⟩]],
    .token ⟨.rBracket, [']']⟩]⟩
  have hrun : ((parse "let p = Package(name: [1])").toOption.any fun root =>
      root.get? array.path == some array.tree &&
        ((Edit.Array.separate array).applyTo? root).any fun spaced =>
          spaced.print == "let p = Package(name: [1,])" &&
            (add none spaced ⟨"a", "https://h/a", .version "1", []⟩).toOption.any
              Outcome.changed) = true := by
    decide +kernel
  have ok_of_any {ε α : Type} {x : Except ε α} {p : α → Bool} (h : x.toOption.any p = true) :
      ∃ a, x = .ok a ∧ p a = true := by
    cases x with
    | error e => cases h
    | ok a => exact ⟨a, rfl, h⟩
  obtain ⟨root, hparse, hroot⟩ := ok_of_any hrun
  obtain ⟨hget, hspaced⟩ := Bool.and_eq_true_iff.1 hroot
  obtain ⟨spaced, happly, hspaced⟩ := (Option.any_eq_true _ _).1 hspaced
  obtain ⟨hprint, hadd⟩ := Bool.and_eq_true_iff.1 hspaced
  obtain ⟨o, hadd, hchanged⟩ := ok_of_any hadd
  have harray : Found root .arrayExpr array := ⟨beq_iff_eq.1 hget, rfl⟩
  have hrevised : Revised root spaced := .edited .start (.separate harray) happly
  exact ⟨root, spaced, o, hparse, hrevised, beq_iff_eq.1 hprint, hadd, hchanged,
    revised_wellShaped hparse (.added hrevised hadd)⟩

end PackageManifest.Proofs.Revisions
