import PackageManifest.Proofs.Addition.Declaring

/-!
# Putting products into the first target

What becomes of the call of `Package` when its first target is to use products: nothing, if it uses
them already or has no array for them, and one more element of that array for each product that is
not there yet otherwise.
-/

namespace PackageManifest.Proofs.Addition

open Source Grammar Lexing Edits Snippets PackageManifest.Addition

def targetAnchors : List String := ["name"]

def unused (package : String) (products : List String) (fs : List Field) : List String :=
  products.filter fun product => !(listed fs).any (usesProduct product package)

/-- What using products does to a target: the new call, none if it stays as it is. -/
inductive Uses (package : String) (products : List String) (target : Tree) : Option Tree → Prop
  /-- The target uses all of them. -/
  | used : unused package products (fields target) = [] → Uses package products target none
  /-- The dependencies of the target are no array, and there cannot be one. -/
  | noArray :
      provided? targetAnchors (fields target) = none → Uses package products target none
  /-- References to the products go to the end of the array, in their order. -/
  | wired {references : List Tree} {new : Tree} :
      unused package products (fields target) ≠ [] →
      ((unused package products (fields target)).mapM fun product =>
        Snippet.productReference product package) = .ok references →
      Extends targetAnchors references target new → new.isNode .callExpr = true →
      Uses package products target (some new)

/-! ## The references -/

theorem mapM_productReference (package : String) (products : List String) :
    (products.mapM fun product => Snippet.productReference product package) =
      .ok (products.map fun product => productTree product package) := by
  induction products with
  | nil => rfl
  | cons product products ih =>
    rw [List.mapM_cons, ih, productReference_eq]
    rfl

def usedNotes (package : String) (products : List String) (fs : List Field) : List Diagnostic :=
  (products.filter fun product => (listed fs).any (usesProduct product package)).map fun product =>
    .alreadyWired product package

theorem pendingReferences_eq (target : Site) (package : String) (products : List String) :
    pendingReferences target package products =
      .ok (usedNotes package products (fields target.tree),
        (unused package products (fields target.tree)).map fun product =>
          productTree product package) := by
  have hused (product : String) : ((argumentArray? target dependenciesLabel).map fun array =>
      containsProduct product package array.tree).getD false =
        (listed (fields target.tree)).any (usesProduct product package) := by
    rw [listed, ← argumentArray?_map]
    cases argumentArray? target dependenciesLabel <;> rfl
  induction products with
  | nil => rfl
  | cons product products ih =>
    rw [pendingReferences, ih]
    simp only [hused, unused, usedNotes, List.filter_cons]
    cases (listed (fields target.tree)).any (usesProduct product package) with
    | true => rfl
    | false =>
      simp only [snippet, productReference_eq]
      rfl

/-! ## The dependencies of a target -/

section Target

variable {around : Tree → Tree} {path : List Nat} {budget : Nat} {others : List Tree} {o : Outcome}
  {target : Tree}

theorem targetArray_eq {site : Site}
    (hplace : Place firstTarget? around path (IsCall (budget + 1) others))
    (h : Filled around (IsCall (budget + 1) others) o.tree target)
    (hsite : argumentArray? ⟨path, target⟩ dependenciesLabel = some site) :
    targetArray o.tree = .ok site := by
  rw [targetArray, h.found hplace]
  simp only [relocate, hsite]

/-- References are appended one after the other, each time to the array that is there then. -/
theorem appendAll_spec (layout : Layout) (level : Nat) {array : Tree} {references : List Tree}
    (hplace : Place firstTarget? around path (IsCall (budget + 1) others))
    (hreferences : ∀ r ∈ references, Fresh budget r)
    (h : Filled around (IsCall (budget + 1) others) o.tree target)
    (harray : arrayOf? dependenciesLabel.toList (fields target) = some array) :
    ∃ o' target', appendAll layout level o references = .ok o' ∧
      Filled around (IsCall (budget + 1) others) o'.tree target' ∧
      o'.changed = (o.changed || !references.isEmpty) ∧
      Grows references (fields target) (fields target') ∧ o'.diagnostics = o.diagnostics ∧
      (references = [] ∧ target' = target ∨
        Regrown path budget others False references target target') := by
  induction references generalizing o target array with
  | nil =>
    exact ⟨o, target, rfl, h, (Bool.or_false _).symm, .refl harray, rfl, .inl ⟨rfl, rfl⟩⟩
  | cons reference references ih =>
    obtain ⟨site, hsite, rfl, hliteral⟩ := exists_site_of_arrayOf? h.holds harray path
    obtain ⟨_, _, hleads, _⟩ := argumentArray_leads h.holds hsite
    have hlexed := Filled.lexed_inside (s := ⟨path, target⟩) h hplace hleads
    have hgrown :=
      append_grown layout level hliteral hlexed (hreferences reference (List.mem_cons_self ..))
    obtain ⟨mid, hmid, hchanged, hgrows, hregrown⟩ :=
      filled_grow h hplace hsite hgrown (List.cons_ne_nil _ _)
    obtain ⟨_, array', _, harray', _⟩ := hgrows.arrayOf?
    obtain ⟨o', target', hall, hdone, hchanges, hmore, hquiet, hrest⟩ :=
      ih (fun r hr => hreferences r (List.mem_cons_of_mem _ hr)) hmid harray'
    refine ⟨o', target', ?_, hdone, ?_, hgrows.trans hmore, ?_, .inr ?_⟩
    · rw [appendAll, targetArray_eq hplace h hsite]
      exact hall
    · rw [hchanges, show Outcome.changed _ = _ from hchanged]
      simp
    · rw [hquiet]
      exact apply_diagnostics _ _
    · rcases hrest with ⟨rfl, rfl⟩ | hrest
      · exact hregrown
      · have := hregrown.trans hrest
        rwa [or_self] at this

def isPlainInline (array : Tree) : Bool :=
  Edit.Array.isInline array && !Edit.Array.holdsComments array

theorem addReferences_spec (layout : Layout) {array : Tree} {references : List Tree}
    (hplace : Place firstTarget? around path (IsCall (budget + 1) others))
    (hreferences : ∀ r ∈ references, Fresh budget r)
    (h : Filled around (IsCall (budget + 1) others) o.tree target)
    (harray : arrayOf? dependenciesLabel.toList (fields target) = some array)
    (hsome : references ≠ []) :
    ∃ o' target', addReferences layout o references = .ok o' ∧
      Filled around (IsCall (budget + 1) others) o'.tree target' ∧ o'.changed = true ∧
      Grows references (fields target) (fields target') ∧ o'.diagnostics = o.diagnostics ∧
      Alters (Loses isPlainInline (fields target)) (grow (references.map Tree.bare))
        target target' := by
  obtain ⟨site, hsite, hsame, hliteral⟩ := exists_site_of_arrayOf? h.holds harray path
  obtain ⟨_, _, hleads, _⟩ := argumentArray_leads h.holds hsite
  have hlexed := Filled.lexed_inside (s := ⟨path, target⟩) h hplace hleads
  rw [addReferences, targetArray_eq hplace h hsite]
  simp only
  rw [← isPlainInline]
  by_cases hinline : isPlainInline site.tree = true
  · have hnone := (Bool.and_eq_true_iff.1 hinline).2
    rw [Bool.not_eq_true'] at hnone
    have hgrown := reflow_grown layout (Edit.Array.baseLevel layout o.tree site) hleads.holds hlexed
      hnone hsome hreferences
    obtain ⟨target', hdone, hchanged, hgrows, hregrown⟩ :=
      filled_grow h hplace hsite hgrown hsome
    exact ⟨_, target', if_pos hinline, hdone, hchanged, hgrows, apply_diagnostics _ _,
      (hregrown.alters h.holds).mono fun hne => ⟨site.tree, hsame ▸ harray, hinline, hne⟩⟩
  · simp only [if_neg hinline]
    obtain ⟨o', target', hall, hdone, hchanged, hgrows, hquiet, hrest⟩ :=
      appendAll_spec layout (Edit.Array.elementLevel layout o.tree site) hplace hreferences h harray
    refine ⟨o', target', hall, hdone, ?_, hgrows, hquiet, ?_⟩
    · rw [hchanged, List.isEmpty_eq_false_iff.2 hsome, Bool.not_false, Bool.or_true]
    · rcases hrest with ⟨hnil, _⟩ | hregrown
      · exact absurd hnil hsome
      · exact (hregrown.alters h.holds).mono False.elim

def useNotes (package : String) (products : List String) (fs : List Field) : List Diagnostic :=
  usedNotes package products fs ++
    if (unused package products fs).isEmpty then []
    else provisionNotes "dependencies of the first target" targetAnchors fs

def use (package : String) (products : List String) (target : Tree) : Tree :=
  extend targetAnchors ((unused package products (fields target)).map fun product =>
    (productTree product package).bare) target

theorem any_usesProduct_bare (h : IsCall (budget + 1) others target) (product package : String) :
    (listed (fields target.bare)).any (usesProduct product package) =
      (listed (fields target)).any (usesProduct product package) := by
  have hsame : (listed (fields target.bare)).map (usesProduct product package) =
      (listed (fields target)).map (usesProduct product package) := by
    rw [fields_bare h, listed_bareField, List.map_map]
    exact List.map_congr_left fun e he =>
      usesProduct_bare (sequence_of_mem_listed h he) product package
  simpa only [List.any_map, Function.id_comp] using congrArg (List.any · id) hsame

theorem unused_bare (h : IsCall (budget + 1) others target) (package : String)
    (products : List String) :
    unused package products (fields target.bare) = unused package products (fields target) := by
  simp only [unused, any_usesProduct_bare h]

theorem wireInto_spec (layout : Layout) (package : String) (products : List String)
    (hplace : Place firstTarget? around path (IsCall (budget + 3) others))
    (h : Filled around (IsCall (budget + 3) others) o.tree target) :
    ∃ o' edited, wireInto layout o ⟨path, target⟩ package products = .ok o' ∧
      Uses package products target edited ∧
      Filled around (IsCall (budget + 3) others) o'.tree (edited.getD target) ∧
      o'.changed = (o.changed || edited.isSome) ∧
      o'.diagnostics = o.diagnostics ++ useNotes package products (fields target) ∧
      ∀ new ∈ edited, Alters (Loses isPlainInline (fields target)) (use package products)
        target new := by
  rw [wireInto, pendingReferences_eq]
  simp only
  by_cases hnone : unused package products (fields target) = []
  · simp only [hnone, List.map_nil, List.isEmpty_nil, if_true]
    refine ⟨_, none, rfl, .used hnone, h, (Bool.or_false _).symm, ?_, nofun⟩
    rw [useNotes, hnone, List.isEmpty_nil, if_pos rfl, List.append_nil]
  · have hsome : ((unused package products (fields target)).map fun product =>
        productTree product package).isEmpty = false := by
      simpa using hnone
    simp only [hsome, Bool.false_eq_true, if_false]
    rw [show ["name"] = targetAnchors from rfl]
    -- What was noted until here changes nothing but the diagnostics.
    generalize hnoted : Outcome.mk o.tree o.changed _ = noted
    have hkept : noted.changed = (o.changed || false) := by rw [← hnoted, Bool.or_false]
    have hnotes (notes : List Diagnostic)
        (hprovision : provisionNotes "dependencies of the first target" targetAnchors
          (fields target) = notes) :
        noted.diagnostics ++ notes =
          o.diagnostics ++ useNotes package products (fields target) := by
      rw [← hnoted, useNotes, if_neg (by simpa using hnone), hprovision, List.append_assoc]
    have h : Filled around (IsCall (budget + 3) others) noted.tree target := by rwa [← hnoted]
    rcases provide_cases layout targetAnchors hplace h with
      ⟨mid, target', hprovide, hfilled, hprovided, hquiet, hsupply, _⟩ |
        ⟨hprovided, ⟨hlookup, hprovide⟩ | ⟨hlookup, hprovide⟩⟩
    · rw [hprovide]
      obtain ⟨array, harray, _⟩ := arrayOf?_of_provided? hprovided
      have hreferences : ∀ r ∈ (unused package products (fields target)).map fun product =>
          productTree product package, Fresh (budget + 2) r := by
        intro r hr
        obtain ⟨product, _, rfl⟩ := List.mem_map.1 hr
        exact productTree_fresh budget product package
      obtain ⟨o', new, hadd, hdone, hchanged, hgrows, hsilent, halters⟩ :=
        addReferences_spec layout hplace hreferences hfilled harray
          (List.isEmpty_eq_false_iff.1 hsome)
      refine ⟨o', some new, hadd, .wired hnone (mapM_productReference package _) ⟨?_, ?_⟩
        hdone.holds.isNode, hdone, by rw [hchanged, Option.isSome_some, Bool.or_true], ?_, ?_⟩
      · rw [hdone.holds.others, h.holds.others]
      · exact ⟨_, hprovided, hgrows⟩
      · rw [hsilent, hquiet, ← hnotes [] (by rw [provisionNotes, hprovided]; rfl), List.append_nil]
      · intro final hfinal
        obtain rfl := Option.some.inj hfinal
        refine ((hsupply.trans halters).mono fun hloses =>
          hloses.elim False.elim fun hloses => hloses.of_provided? hprovided).congr ?_
        rw [use, unused_bare h.holds, extend, List.map_map]
        rfl
    · rw [hprovide]
      refine ⟨_, none, rfl, .noArray hprovided, h, hkept, hnotes _ ?_, nofun⟩
      rw [provisionNotes, hprovided, hlookup]
      rfl
    · rw [hprovide]
      refine ⟨_, none, rfl, .noArray hprovided, h, hkept, hnotes _ ?_, nofun⟩
      rw [provisionNotes, hprovided, hlookup]
      rfl

end Target

/-! ## The first target -/

def targetOf? (fs : List Field) : Option Tree :=
  (arrayOf? targetsLabel.toList fs).bind fun targets =>
    targets.elementExprs.head?.filter (Tree.isNode .callExpr)

/-- What using products in the first target does to the call of `Package`: the new call, none if it
stays as it is. -/
inductive Wires (package : String) (products : List String) (call : Tree) : Option Tree → Prop
  /-- The targets are no array, or the first one is no call. -/
  | noTarget : targetOf? (fields call) = none → Wires package products call none
  | kept {target : Tree} :
      targetOf? (fields call) = some target → Uses package products target none →
      Wires package products call none
  /-- The first target is replaced. -/
  | wired {targets targets' target target' new : Tree} {rest : List Tree} :
      targetOf? (fields call) = some target →
      arrayOf? targetsLabel.toList (fields call) = some targets →
      targets.elementExprs = target :: rest → Uses package products target (some target') →
      targets'.isNode .arrayExpr = true → targets'.elementExprs = target' :: rest →
      besides new = besides call →
      fields new = setField targetsLabel.toList targets' (fields call) →
      Wires package products call (some new)

section Package

variable {around : Tree → Tree} {path : List Nat} {budget : Nat} {others : List Tree} {o : Outcome}
  {call : Tree}

def targetSite? (call : Site) : Option Site :=
  (argumentArray? call targetsLabel).bind firstCall?

theorem targetSite?_map {call : Site} (hcall : IsCall (budget + 1) others call.tree) :
    (targetSite? call).map Site.tree = targetOf? (fields call.tree) := by
  rw [targetOf?, ← argumentArray?_map, targetSite?]
  cases harray : argumentArray? call targetsLabel with
  | none => rfl
  | some array =>
    obtain ⟨_, _, hleads, _⟩ := argumentArray_leads hcall harray
    have hhead : array.tree.elements.head? =
        (array.child? (Tree.isNode .arrayElement)).map Site.tree := by
      rw [Tree.elements, List.head?_filter, Site.child?_map]
    rw [Option.bind_some, Option.map_some, Option.bind_some, head?_elementExprs hleads.holds,
      firstCall?, if_pos hleads.holds.isNode, Site.head?_elements, hhead]
    cases array.child? (Tree.isNode .arrayElement) with
    | none => rfl
    | some e =>
      rw [Option.map_some, Option.bind_some, Option.bind_some, Tree.expr?, ← Site.child?_map,
        Site.expr?]
      cases e.child? Tree.isExpr with
      | none => rfl
      | some target =>
        simp only [Option.filter, Option.map_some]
        split <;> rfl

theorem firstTarget?_eq_bind : firstTarget? = fun tree => (packageCall? tree).bind targetSite? := by
  funext tree
  exact firstTarget?_eq tree

/-- The first target of a call can be replaced, which changes that element only. -/
theorem target_leads {call target : Site} (hcall : IsCall (budget + 2) others call.tree)
    (h : targetSite? call = some target) :
    ∃ build q targets rest, Leads targetSite? build q (IsCall (budget + 2) others)
        (IsCall budget (besides target.tree)) call target ∧
      arrayOf? targetsLabel.toList (fields call.tree) = some targets ∧
      targets.elementExprs = target.tree :: rest ∧
      ∀ t, IsCall budget (besides target.tree) t → ∃ targets', targets'.isNode .arrayExpr = true ∧
        targets'.elementExprs = t :: rest ∧
        fields (build t) = setField targetsLabel.toList targets' (fields call.tree) := by
  obtain ⟨array, harray, htarget⟩ := Option.bind_eq_some_iff.1 h
  obtain ⟨outer, p, houter, hfields⟩ := argumentArray_leads hcall harray
  obtain ⟨inner, q, rest, hinner, hexprs⟩ := firstCall_leads houter.holds htarget
  have hmap := argumentArray?_map call targetsLabel
  rw [harray] at hmap
  refine ⟨_, _, array.tree, rest, houter.inside hinner, hmap.symm, ?_, fun t ht => ?_⟩
  · rw [hinner.tree_eq, hexprs _ hinner.holds]
  · have hliteral := hinner.keeps ht
    exact ⟨inner t, hliteral.isNode, hexprs t ht, hfields _ hliteral⟩

def missingTarget (fs : List Field) : Diagnostic :=
  match (lookup? targetsLabel.toList fs).bind Prod.snd with
  | none => .noTargets
  | some targets =>
    if !targets.isNode .arrayExpr then .structuralMismatch targetsLabel "an array literal"
    else if targets.elements.isEmpty then .noTargets
    else .structuralMismatch "the first target" "a target call"

def wireNotes (package : String) (products : List String) (fs : List Field) : List Diagnostic :=
  match targetOf? fs with
  | none => [missingTarget fs]
  | some target => useNotes package products (fields target)

def alterTarget (f : Tree → Tree) : Tree → Tree :=
  alterValue targetsLabel.toList (alter (Tree.isNode .arrayElement) (alter Tree.isExpr f))

theorem wire_cases (layout : Layout) (package : String) (products : List String)
    (hcall : packageCall? o.tree = some ⟨path, call⟩) :
    (firstTarget? o.tree = none ∧
        wire layout o package products = .ok (o.note (missingTarget (fields call)))) ∨
      ∃ target, firstTarget? o.tree = some target ∧
        wire layout o package products = wireInto layout o target package products := by
  have hmap : (targets? o.tree).map Site.tree =
      (lookup? targetsLabel.toList (fields call)).bind Prod.snd := by
    rw [targets?, hcall, Option.bind_some, Site.argumentValue?_map, argumentValue?_field]
  unfold wire
  cases hfirst : firstTarget? o.tree with
  | none =>
    refine .inl ⟨rfl, ?_⟩
    rw [missingTarget, ← hmap]
    cases targets? o.tree with
    | none => rfl
    | some targets =>
      simp only [Option.map_some]
      split
      · rfl
      · split <;> rfl
  | some target =>
    refine .inr ⟨target, rfl, ?_⟩
    unfold firstTarget? at hfirst
    cases htargets : targets? o.tree with
    | none =>
      rw [htargets] at hfirst
      cases hfirst
    | some targets =>
      simp only [htargets] at hfirst ⊢
      obtain ⟨harray, hfirst⟩ := Option.ite_none_right_eq_some.1 hfirst
      obtain ⟨hfirst, _⟩ := Option.filter_eq_some_iff.1 hfirst
      obtain ⟨e, he, _⟩ := Option.bind_eq_some_iff.1 hfirst
      have hsome : targets.tree.elements.isEmpty = false := by
        rw [Site.head?_elements] at he
        have hmap := Site.child?_map targets (Tree.isNode .arrayElement)
        rw [he, ← List.head?_filter] at hmap
        rw [List.isEmpty_eq_false_iff]
        intro hnil
        rw [← Tree.elements, hnil] at hmap
        cases hmap
      simp only [harray, hsome, Bool.not_true, Bool.false_eq_true, if_false]

theorem alters_target {lossy : Prop} {f build : Tree → Tree} {q : List Nat} {P : Tree → Prop}
    {target : Site} {new : Tree} (hcall : IsCall (budget + 2) others call)
    (hleads : Leads targetSite? build q (IsCall (budget + 2) others) P ⟨path, call⟩ target)
    (hnew : new.isNode .callExpr = true) (h : Alters lossy f target.tree new) :
    Alters lossy (alterTarget f) call (build new) := by
  obtain ⟨array, harray, htarget⟩ := Option.bind_eq_some_iff.1 hleads.finds
  obtain ⟨hvalue, _⟩ := Option.filter_eq_some_iff.1 harray
  obtain ⟨list, outer, p, middle, m, hlist, houter, hmiddle⟩ := argumentValue_traces hcall hvalue
  obtain ⟨inner, r, hinner⟩ := firstCall_traces htarget
  have hsolid := Tree.isTrivia_of_token? (Tree.token?_of_isNode hnew)
  have hway := hmiddle.inside hinner
  exact alters_inside (f := f) hlist houter hway hleads hsolid h.bare.symm h.keeps

theorem wire_spec (layout : Layout) (package : String) (products : List String)
    (hplace : Place packageCall? around path (IsCall (budget + 5) others))
    (h : Filled around (IsCall (budget + 5) others) o.tree call) :
    ∃ o' edited, wire layout o package products = .ok o' ∧
      Wires package products call edited ∧
      Filled around (IsCall (budget + 5) others) o'.tree (edited.getD call) ∧
      o'.changed = (o.changed || edited.isSome) ∧
      o'.diagnostics = o.diagnostics ++ wireNotes package products (fields call) ∧
      ∀ new ∈ edited, ∃ target, targetOf? (fields call) = some target ∧
        Alters (Loses isPlainInline (fields target)) (alterTarget (use package products))
          call new := by
  have hfound := h.found hplace
  have hfirst : firstTarget? o.tree = targetSite? ⟨path, call⟩ := by
    rw [firstTarget?_eq, hfound]
    rfl
  have hmap : (targetSite? ⟨path, call⟩).map Site.tree = targetOf? (fields call) :=
    targetSite?_map h.holds
  rw [← hfirst] at hmap
  rw [wireNotes]
  rcases wire_cases layout package products hfound with ⟨hnone, hwire⟩ | ⟨target, hsome, hwire⟩
  · rw [hnone] at hmap
    rw [← hmap]
    exact ⟨_, none, hwire, .noTarget hmap.symm, h, (Bool.or_false _).symm, rfl, nofun⟩
  · rw [hsome] at hmap hfirst
    obtain ⟨build, q, targets, rest, hleads, htargets, hexprs, hfields⟩ :=
      @target_leads _ _ ⟨path, call⟩ target h.holds hfirst.symm
    have hinner : Place firstTarget? (fun t => around (build t)) (path ++ q)
        (IsCall (budget + 3) (besides target.tree)) := by
      rw [firstTarget?_eq_bind]
      exact hplace.inside hleads.toSlot
    obtain ⟨o', edited, hinto, huses, hdone, hkept, hnotes, halters⟩ :=
      wireInto_spec layout package products hinner (Filled.inside (s := ⟨path, call⟩) h hleads)
    rw [hwire, show target = ⟨path ++ q, target.tree⟩ by rw [← hleads.path_eq], ← hmap]
    refine ⟨o', edited.map build, hinto, ?_, ?_, ?_, hnotes, ?_⟩
    · cases edited with
      | none => exact .kept hmap.symm huses
      | some target' =>
        obtain ⟨targets', hnode, hexprs', hset⟩ := hfields target' hdone.holds
        have hothers : besides (build target') = besides call :=
          (hleads.keeps hdone.holds).others.trans h.holds.others.symm
        exact .wired hmap.symm htargets hexprs huses hnode hexprs' hothers hset
    · have hcall := hdone.outside hleads.toSlot
      cases edited with
      | none => rwa [Option.getD_none, ← hleads.tree_eq] at hcall
      | some target' => exact hcall
    · rw [hkept, Option.isSome_map]
    · intro new hnew
      obtain ⟨target', hedited, rfl⟩ := Option.map_eq_some_iff.1 hnew
      refine ⟨target.tree, rfl, alters_target h.holds hleads ?_ (halters target' hedited)⟩
      rw [hedited, Option.getD_some] at hdone
      exact hdone.holds.isNode

end Package

/-! ## Once they are used -/

def wanting (package : String) (products : List String) (target : Tree) : Bool :=
  (provided? targetAnchors (fields target)).isSome &&
    !(unused package products (fields target)).isEmpty

section Settled

variable {package : String} {products : List String} {edited : Option Tree}

theorem Uses.isNode {target new : Tree} (h : Uses package products target (some new)) :
    new.isNode .callExpr = true := by
  cases h with
  | wired _ _ _ hnode => exact hnode

theorem Uses.determined {target : Tree} (h : Uses package products target edited) :
    edited.isSome = wanting package products target := by
  unfold wanting
  cases h with
  | used hnone =>
    rw [hnone]
    exact (Bool.and_false _).symm
  | noArray hnone =>
    rw [hnone]
    rfl
  | wired hsome _ hextends _ =>
    obtain ⟨_, base, hbase, _⟩ := hextends
    rw [hbase, List.isEmpty_eq_false_iff.2 hsome]
    rfl

theorem Uses.settled {target new : Tree} (h : Uses package products target (some new)) :
    unused package products (fields new) = [] := by
  cases h with
  | wired hsome hreferences hextends _ =>
    rw [mapM_productReference] at hreferences
    obtain rfl := Except.ok.inj hreferences
    rw [unused, List.filter_eq_nil_iff, hextends.listed]
    intro product hproduct
    rw [Bool.not_eq_true', Bool.not_eq_false, List.any_append, Bool.or_eq_true]
    cases hused : (listed (fields target)).any (usesProduct product package) with
    | true => exact .inl rfl
    | false =>
      right
      have hmem : product ∈ unused package products (fields target) :=
        List.mem_filter.2 ⟨hproduct, by rw [hused]; rfl⟩
      exact List.any_eq_true.2 ⟨_, List.mem_map.2 ⟨product, hmem, rfl⟩,
        usesProduct_productTree product package⟩

theorem Wires.determined {call : Tree} (h : Wires package products call edited) :
    edited.isSome = (targetOf? (fields call)).any (wanting package products) := by
  cases h with
  | noTarget hnone =>
    rw [hnone]
    rfl
  | kept htarget huses =>
    rw [htarget]
    exact huses.determined
  | wired htarget _ _ huses =>
    rw [htarget]
    exact huses.determined

/-- After the products were put into the first target there is nothing left to put there. -/
theorem Wires.settled {call : Tree} (h : Wires package products call edited) :
    (targetOf? (fields (edited.getD call))).any (wanting package products) = false := by
  have hdetermined := h.determined
  cases h with
  | wired htarget htargets _ huses hnode hexprs _ hfields =>
    have hunused := huses.settled
    have hcall : Tree.isNode .callExpr _ = true := huses.isNode
    rw [Option.getD_some, hfields, targetOf?,
      arrayOf?_setField (lookup?_of_arrayOf? htargets) hnode, Option.bind_some, hexprs,
      List.head?_cons, Option.filter_some, if_pos hcall, Option.any_some, wanting, hunused]
    exact Bool.and_false _
  | _ => exact hdetermined.symm

theorem Wires.lookup? {call : Tree} (h : Wires package products call edited) {label : List Char}
    (hlabel : label ≠ targetsLabel.toList) :
    lookup? label (fields (edited.getD call)) = lookup? label (fields call) := by
  cases h with
  | wired _ _ _ _ _ _ _ hfields => rw [Option.getD_some, hfields, lookup?_setField_of_ne _ hlabel]
  | _ => rfl

end Settled

end PackageManifest.Proofs.Addition
