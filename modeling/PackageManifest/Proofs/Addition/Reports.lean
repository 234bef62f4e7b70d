import PackageManifest.Proofs.Addition.Meaning
import PackageManifest.Proofs.Addition.Runs

/-!
# What an addition leaves undone is reported

Main statement: `add_reports`. Where no obstacle is reported the package is declared, and where a
target is there too it uses every product. Where nothing was changed, everything was there already
and is reported as such. An addition counts as a change exactly if it leaves another text.
-/

namespace PackageManifest.Proofs.Addition

open Source Grammar Lexing Edits Snippets PackageManifest.Addition

/-- The findings that keep a dependency from being declared or its products from being used. -/
def isObstacle : Diagnostic → Bool
  | .noRootPackage | .structuralMismatch _ _ | .missingAnchor _ _ => true
  | .duplicatePackage _ _ | .noTargets | .alreadyWired _ _ => false

def Unobstructed (found : List Diagnostic) : Prop := ∀ n ∈ found, isObstacle n = false

theorem unobstructed_append {found more : List Diagnostic} :
    Unobstructed (found ++ more) ↔ Unobstructed found ∧ Unobstructed more := by
  simp only [Unobstructed, List.forall_mem_append]

/-! ## The array of a call -/

/-- A call that has no array for its dependencies, and cannot be given one, is reported. -/
theorem isSome_of_unobstructed {what : String} {candidates : List String} {fs : List Field}
    (h : Unobstructed (provisionNotes what candidates fs)) :
    (provided? candidates fs).isSome = true := by
  cases hsome : (provided? candidates fs).isSome with
  | true => rfl
  | false =>
    rw [provisionNotes, hsome, if_neg (by decide)] at h
    split at h <;> cases h _ (List.mem_singleton_self _)

/-! ## The declaration -/

section Declaration

variable {d : Dependency} {call : Tree} {name : Option String} {edited : Option Tree}

/-- A declaration without obstacles is the first one of the package that the call lists then, and
gives the name. -/
theorem Declares.findSome? (h : Declares d call name edited)
    (hnotes : Unobstructed (declareNotes d (fields call))) :
    name.isSome = true ∧
      (listed (fields (edited.getD call))).findSome? (declaredName? d.url) = name := by
  have hprovided (hnone : (listed (fields call)).findSome? (declaredName? d.url) = none) :
      (provided? packageAnchors (fields call)).isSome = true := by
    rw [declareNotes, hnone] at hnotes
    exact isSome_of_unobstructed hnotes
  cases h with
  | noPlace hlookup hanchor =>
    have hlisted : listed (fields call) = [] := by
      rw [listed, arrayOf?, hlookup]
      rfl
    have hsome := hprovided (by rw [hlisted]; rfl)
    rw [isSome_provided?, hlookup, hanchor] at hsome
    cases hsome
  | otherShape hlookup hnone =>
    have hlisted : listed (fields call) = [] := by
      rw [listed, hnone]
      rfl
    have hsome := hprovided (by rw [hlisted]; rfl)
    rw [isSome_provided?, hlookup, hnone] at hsome
    cases hsome
  | declared hlisted hbefore hexpr =>
    exact ⟨rfl, findSome?_declaredName?.2 ⟨_, _, _, hlisted, hbefore, hexpr⟩⟩
  | added hnone hreference hextends =>
    obtain rfl := Except.ok.inj ((packageReference_eq d).symm.trans hreference)
    refine ⟨rfl, ?_⟩
    rw [Option.getD_some, hextends.listed, List.findSome?_append,
      findSome?_declaredName?_eq_none.2 hnone, Option.none_or, List.findSome?_cons,
      declaredName?_packageTree]

theorem Declares.notes_of_kept {name : String} (h : Declares d call (some name) none)
    (hnotes : Unobstructed (declareNotes d (fields call))) :
    declareNotes d (fields call) = [.duplicatePackage d.url name] := by
  have hfirst := (h.findSome? hnotes).2
  rw [Option.getD_none] at hfirst
  rw [declareNotes, hfirst]

end Declaration

/-! ## The products -/

section Products

variable {package : String} {products : List String} {edited : Option Tree}

/-- A target without obstacles lists every product in the end. -/
theorem Uses.unused_eq_nil {target : Tree} (h : Uses package products target edited)
    (hnotes : Unobstructed (useNotes package products (fields target))) :
    unused package products (fields (edited.getD target)) = [] := by
  cases edited with
  | some new => exact h.settled
  | none =>
    cases hsome : (unused package products (fields target)).isEmpty with
    | true => exact List.isEmpty_iff.1 hsome
    | false =>
      rw [useNotes, hsome, unobstructed_append] at hnotes
      have hwanting := h.determined
      rw [wanting, isSome_of_unobstructed hnotes.2, hsome] at hwanting
      cases hwanting

theorem usedNotes_eq_map {fs : List Field} (h : unused package products fs = []) :
    usedNotes package products fs = products.map fun product => .alreadyWired product package := by
  have hall : ∀ product ∈ products, (listed fs).any (usesProduct product package) = true := by
    simpa [unused, List.filter_eq_nil_iff] using h
  rw [usedNotes, List.filter_eq_self.2 hall]

/-- If there is no target, that is what is reported, or it is an obstacle. -/
theorem missingTarget_cases (fs : List Field) :
    missingTarget fs = .noTargets ∨ isObstacle (missingTarget fs) = true := by
  unfold missingTarget
  split
  · exact .inl rfl
  · split
    · exact .inr rfl
    · split
      · exact .inl rfl
      · exact .inr rfl

variable {call : Tree}

theorem Wires.unused_eq_nil (h : Wires package products call edited)
    (hnotes : Unobstructed (wireNotes package products (fields call)))
    (htargets : .noTargets ∉ wireNotes package products (fields call)) :
    ∃ target, targetOf? (fields (edited.getD call)) = some target ∧
      unused package products (fields target) = [] := by
  unfold wireNotes at hnotes htargets
  cases h with
  | noTarget hnone =>
    rw [hnone] at hnotes htargets
    have hmem := List.mem_singleton_self (missingTarget (fields call))
    rcases missingTarget_cases (fields call) with hmissing | hobstacle
    · exact absurd (hmissing ▸ hmem) htargets
    · cases (hnotes _ hmem).symm.trans hobstacle
  | kept htarget huses =>
    rw [htarget] at hnotes
    exact ⟨_, htarget, huses.unused_eq_nil hnotes⟩
  | wired htarget harray _ huses hnode hexprs _ hfields =>
    refine ⟨_, ?_, huses.settled⟩
    rw [Option.getD_some, hfields, targetOf?,
      arrayOf?_setField (lookup?_of_arrayOf? harray) hnode, Option.bind_some, hexprs,
      List.head?_cons, Option.filter_some, if_pos huses.isNode]

theorem Wires.notes_of_kept (h : Wires package products call none)
    (hnotes : Unobstructed (wireNotes package products (fields call)))
    (htargets : .noTargets ∉ wireNotes package products (fields call)) :
    wireNotes package products (fields call) =
      products.map fun product => .alreadyWired product package := by
  obtain ⟨target, htarget, hunused⟩ := h.unused_eq_nil hnotes htargets
  rw [Option.getD_none] at htarget
  rw [wireNotes, htarget]
  simp only [useNotes, hunused, List.isEmpty_nil, if_true, List.append_nil, usedNotes_eq_map]

end Products

/-! ## Changes of the text -/

/-- An addition that changes something leaves another text. -/
theorem changed_iff_print_ne {indent : Option IndentStyle} {d : Dependency} {root : Tree}
    {o : Outcome} (h : Faithful root) (hadd : add indent root d = .ok o) :
    o.changed = true ↔ o.tree.print ≠ root.print := by
  obtain ⟨o', edited, hadd', hadds, htree, hfaithful, hchanged⟩ := add_spec indent d h
  obtain rfl : o' = o := Except.ok.inj (hadd'.symm.trans hadd)
  refine ⟨fun hyes hsame => ?_, fun hne => ?_⟩
  · -- Of one text there is one tree, so an addition to it has nothing left to do.
    have hroot : o'.tree = root := by
      have hparse : parse o'.tree.print = .ok o'.tree := hfaithful
      rw [hsame, show parse root.print = .ok root from h] at hparse
      exact (Except.ok.inj hparse).symm
    have hnone : edited = none := by
      refine hadds.eq_none fun call hcall => hadds.finished ?_
      rwa [← htree, hroot]
    rw [hchanged, hnone] at hyes
    cases hyes
  · cases edited with
    | some new => exact hchanged
    | none => exact absurd (by rw [htree]; rfl) hne

/-! ## The report of an addition -/

/-- The first declaration of the package from `url` in the tree of a manifest, which the products
go by the name of. -/
def IsDeclared (url : String) (tree : Tree) (name : String) : Prop :=
  ∃ call array before expr after, packageCall? tree = some call ∧
    argumentArray? call dependenciesLabel = some array ∧
    array.tree.elementExprs = before ++ expr :: after ∧
    (∀ e ∈ before, ∀ name, ¬DeclaresAs url e name) ∧ DeclaresAs url expr name

/-- The first target in the tree of a manifest uses every product of the package. -/
def AreUsed (package : String) (products : List String) (tree : Tree) : Prop :=
  ∃ target, firstTarget? tree = some target ∧
    ∀ product ∈ products, ∃ array, argumentArray? target dependenciesLabel = some array ∧
      ∃ expr ∈ array.tree.elementExprs, usesProduct product package expr = true

section Sites

variable {tree : Tree} {call : Site}

theorem isDeclared_of_findSome? {url name : String} (hcall : packageCall? tree = some call)
    (h : (listed (fields call.tree)).findSome? (declaredName? url) = some name) :
    IsDeclared url tree name := by
  obtain ⟨before, expr, after, hlisted, hbefore, hexpr⟩ := findSome?_declaredName?.1 h
  obtain ⟨array, harray⟩ := exists_array_of_listed
    (hlisted ▸ List.append_ne_nil_of_right_ne_nil _ (List.cons_ne_nil _ _))
  rw [listed_eq harray] at hlisted
  rw [← argumentArray?_map] at harray
  obtain ⟨site, hsite, rfl⟩ := Option.map_eq_some_iff.1 harray
  exact ⟨call, site, before, expr, after, hcall, hsite, hlisted, hbefore, hexpr⟩

theorem areUsed_of_unused {budget : Nat} {others : List Tree} {package : String}
    {products : List String} {target : Tree} (hcall : packageCall? tree = some call)
    (hholds : IsCall (budget + 1) others call.tree)
    (htarget : targetOf? (fields call.tree) = some target)
    (h : unused package products (fields target) = []) : AreUsed package products tree := by
  rw [← targetSite?_map hholds] at htarget
  obtain ⟨site, hsite, rfl⟩ := Option.map_eq_some_iff.1 htarget
  refine ⟨site, by rw [firstTarget?_eq, hcall]; exact hsite, fun product hproduct => ?_⟩
  have hused : (listed (fields site.tree)).any (usesProduct product package) = true := by
    have hnot := List.filter_eq_nil_iff.1 h product hproduct
    simpa using hnot
  obtain ⟨expr, hmem, huses⟩ := List.any_eq_true.1 hused
  obtain ⟨array, harray⟩ := exists_array_of_listed (List.ne_nil_of_mem hmem)
  rw [listed_eq harray] at hmem
  rw [← argumentArray?_map] at harray
  obtain ⟨array, hsite, rfl⟩ := Option.map_eq_some_iff.1 harray
  exact ⟨array, hsite, expr, hmem, huses⟩

end Sites

/-- Nothing is left undone silently. If no obstacle is reported, the package is declared, and if it
is not reported either that there are no targets, the first target uses every product of it. If in
addition nothing was changed, the package and each of its products are reported to be there. An
addition changes something exactly if it changes the text. -/
theorem add_reports {source : String} {root : Tree} (indent : Option IndentStyle) (d : Dependency)
    (h : parse source = .ok root) :
    ∃ o, add indent root d = .ok o ∧
      (Unobstructed o.diagnostics → ∃ name, IsDeclared d.url o.tree name ∧
        (.noTargets ∉ o.diagnostics → AreUsed name d.products o.tree ∧
          (o.changed = false → o.diagnostics = .duplicatePackage d.url name ::
            d.products.map fun product => .alreadyWired product name))) ∧
      (o.changed = true ↔ o.tree.print ≠ source) := by
  have hroot := faithful_of_parse h
  obtain rfl : root.print = source := RoundTrip.print_of_tokens (RoundTrip.tokens_of_parseText h)
  cases hfound : packageCall? root with
  | none =>
    have hadd := add_of_noRoot indent d hfound
    refine ⟨_, hadd, fun hnotes => ?_, changed_iff_print_ne hroot hadd⟩
    cases hnotes .noRootPackage (List.mem_singleton_self _)
  | some call =>
    obtain ⟨o, name, declared, wired, hadd, hrun, _, hcall, hfaithful⟩ :=
      add_run indent d hroot hfound
    refine ⟨o, hadd, fun hnotes => ?_, changed_iff_print_ne hroot hadd⟩
    have hdiagnostics := hrun.diagnostics
    rw [hdiagnostics, unobstructed_append] at hnotes
    obtain ⟨hname, hfirst⟩ := hrun.declares.findSome? hnotes.1
    obtain ⟨name, rfl⟩ := Option.isSome_iff_exists.1 hname
    have hwires := hrun.wires name rfl
    -- The products go into the targets, so the declaration is found where it was.
    have hlisted : listed (fields (wired.getD (declared.getD call.tree))) =
        listed (fields (declared.getD call.tree)) := by
      rw [listed, listed, arrayOf?, arrayOf?, hwires.lookup? (by decide)]
    rw [← hlisted] at hfirst
    refine ⟨name, isDeclared_of_findSome? hcall hfirst, fun htargets => ?_⟩
    rw [hdiagnostics, List.mem_append, not_or] at htargets
    obtain ⟨target, htarget, hunused⟩ := hwires.unused_eq_nil hnotes.2 htargets.2
    obtain ⟨_, hfilled, _⟩ := packageCall_place hfaithful hcall
    refine ⟨areUsed_of_unused hcall hfilled.holds htarget hunused, fun hsame => ?_⟩
    rw [hrun.changed, Bool.or_eq_false_iff, Option.isSome_eq_false_iff, Option.isSome_eq_false_iff,
      Option.isNone_iff_eq_none, Option.isNone_iff_eq_none] at hsame
    obtain ⟨rfl, rfl⟩ := hsame
    rw [hdiagnostics, hrun.declares.notes_of_kept hnotes.1, List.singleton_append]
    exact congrArg _ (hwires.notes_of_kept hnotes.2 htargets.2)

/-- A manifest that declares the package at another spelling of its location and uses its
product. -/
theorem add_reports_all_there :
    ∃ source root o, source = "let p = Package(dependencies: [.package(url: \"H/a.git\")], " ++
        "targets: [.t(dependencies: [c, .product(name: \"A\", package: \"a\")])])" ∧
      parse source = .ok root ∧ add none root ⟨"b", "h/a", .version "1", ["A"]⟩ = .ok o ∧
      Unobstructed o.diagnostics ∧ .noTargets ∉ o.diagnostics ∧ o.changed = false ∧
      (∃ name, IsDeclared "h/a" o.tree name ∧ AreUsed name ["A"] o.tree ∧
        o.diagnostics = [.duplicatePackage "h/a" name, .alreadyWired "A" name]) ∧
      o.tree.print = source := by
  have hrun : ((parse ("let p = Package(dependencies: [.package(url: \"H/a.git\")], " ++
      "targets: [.t(dependencies: [c, .product(name: \"A\", package: \"a\")])])")).toOption.bind
        fun root => (add none root ⟨"b", "h/a", .version "1", ["A"]⟩).toOption.map fun o =>
          (o.diagnostics.any isObstacle, o.diagnostics.contains .noTargets, o.changed)) =
        some (false, false, false) := by
    decide +kernel
  obtain ⟨root, hroot, hrun⟩ := Option.bind_eq_some_iff.1 hrun
  have hroot := RoundTrip.eq_ok_of_toOption hroot
  obtain ⟨o, hadd, hreports, htext⟩ := add_reports none ⟨"b", "h/a", .version "1", ["A"]⟩ hroot
  simp only [hadd, Except.toOption, Option.map_some, Option.some.injEq, Prod.mk.injEq] at hrun
  obtain ⟨hnotes, htargets, hchanged⟩ := hrun
  have hnotes : Unobstructed o.diagnostics := by simpa [Unobstructed] using hnotes
  have htargets : .noTargets ∉ o.diagnostics := by simpa using htargets
  obtain ⟨name, hdeclared, hrest⟩ := hreports hnotes
  obtain ⟨hused, hthere⟩ := hrest htargets
  refine ⟨_, root, o, rfl, hroot, hadd, hnotes, htargets, hchanged,
    ⟨name, hdeclared, hused, hthere hchanged⟩, ?_⟩
  rw [hchanged] at htext
  simpa using htext

end PackageManifest.Proofs.Addition
