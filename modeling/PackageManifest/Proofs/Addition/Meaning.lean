import PackageManifest.Proofs.Addition.Specification

/-!
# What an addition means

`meaning` adds a dependency to a manifest without trivia, where there are no lines and no comments
to look at. What an addition reports, and what it leaves when trivia is left out of account, is what
`meaning` says of the manifest without its trivia, so it depends neither on how the manifest is
laid out nor on how its arrays are edited.
-/

namespace PackageManifest.Proofs.Addition

open Source Grammar Lexing Edits Snippets PackageManifest.Addition

/-! ## Manifests without trivia -/

/-- The name of the package whose products go into the first target, none if nothing goes there. -/
def wiredName? (d : Dependency) (fs : List Field) : Option String :=
  (nameIn? d fs).filter fun name => (targetOf? fs).any (wanting name d.products)

def notes (d : Dependency) (fs : List Field) : List Diagnostic :=
  declareNotes d fs ++ (nameIn? d fs).elim [] fun name => wireNotes name d.products fs

/-- Declares the dependency in a call without trivia, as the fields of the call have it. -/
def addDeclaration (d : Dependency) (fs : List Field) : Tree → Tree :=
  if undeclared d fs then extend packageAnchors [(packageTree d).bare] else id

def addProducts (d : Dependency) (fs : List Field) : Tree → Tree :=
  (wiredName? d fs).elim id fun name => alterTarget (use name d.products)

def addToCall (d : Dependency) (call : Tree) : Tree :=
  addProducts d (fields call) (addDeclaration d (fields call) call)

/-- Adds a dependency to a manifest without trivia. -/
def meaning (d : Dependency) (plain : Tree) : Outcome :=
  match packageCall? plain with
  | none => ⟨plain, false, [.noRootPackage]⟩
  | some call =>
    { tree := alter Tree.isPackageBinding (alter Tree.isExpr (addToCall d)) plain
      changed := undeclared d (fields call.tree) || (wiredName? d (fields call.tree)).isSome
      diagnostics := notes d (fields call.tree) }

/-- Adding a dependency to a call writes an array anew that has something to lose: an empty one of
the package, or one of the first target if products go there. -/
def LosesBlanks (d : Dependency) (call : Tree) : Prop :=
  Loses isEmptyInline (fields call) ∨ (wiredName? d (fields call)).isSome = true ∧
    ∃ target, targetOf? (fields call) = some target ∧ Loses isPlainInline (fields target)

/-! ## What is decided without the trivia -/

section Bare

variable {budget : Nat} {others : List Tree} {call target : Tree}

theorem isSome_provided?_bareField (candidates : List String) (fs : List Field) :
    (provided? candidates (fs.map bareField)).isSome = (provided? candidates fs).isSome := by
  simp only [isSome_provided?, lookup?_bareField, arrayOf?_bareField, anchorLabel?_bareField,
    Option.isSome_map]

theorem provisionNotes_bareField (what : String) (candidates : List String) (fs : List Field) :
    provisionNotes what candidates (fs.map bareField) = provisionNotes what candidates fs := by
  simp only [provisionNotes, isSome_provided?_bareField, lookup?_bareField, Option.isSome_map]

theorem findSome?_declaredName?_bare (h : IsCall (budget + 1) others call) (url : String) :
    (listed (fields call.bare)).findSome? (declaredName? url) =
      (listed (fields call)).findSome? (declaredName? url) := by
  have hsame : (listed (fields call.bare)).map (declaredName? url) =
      (listed (fields call)).map (declaredName? url) := by
    rw [fields_bare h, listed_bareField, List.map_map]
    exact List.map_congr_left fun e he => declaredName?_bare (sequence_of_mem_listed h he) url
  simpa only [List.findSome?_map, Function.id_comp] using congrArg (List.findSome? id) hsame

theorem nameIn?_bare (h : IsCall (budget + 1) others call) (d : Dependency) :
    nameIn? d (fields call.bare) = nameIn? d (fields call) := by
  rw [nameIn?, nameIn?, findSome?_declaredName?_bare h, fields_bare h, lookup?_bareField,
    anchorLabel?_bareField, Option.isSome_map]

theorem undeclared_bare (h : IsCall (budget + 1) others call) (d : Dependency) :
    undeclared d (fields call.bare) = undeclared d (fields call) := by
  rw [undeclared, undeclared, findSome?_declaredName?_bare h, fields_bare h,
    isSome_provided?_bareField]

theorem declareNotes_bare (h : IsCall (budget + 1) others call) (d : Dependency) :
    declareNotes d (fields call.bare) = declareNotes d (fields call) := by
  rw [declareNotes, declareNotes, findSome?_declaredName?_bare h, fields_bare h,
    provisionNotes_bareField]

theorem wanting_bare (h : IsCall (budget + 1) others target) (package : String)
    (products : List String) :
    wanting package products target.bare = wanting package products target := by
  rw [wanting, wanting, unused_bare h, fields_bare h, isSome_provided?_bareField]

theorem useNotes_bare (h : IsCall (budget + 1) others target) (package : String)
    (products : List String) :
    useNotes package products (fields target.bare) = useNotes package products (fields target) := by
  rw [useNotes, useNotes, unused_bare h, usedNotes, usedNotes]
  simp only [any_usesProduct_bare h]
  rw [fields_bare h, provisionNotes_bareField]

theorem targetOf?_bareField (fs : List Field) :
    targetOf? (fs.map bareField) = (targetOf? fs).map Tree.bare := by
  rw [targetOf?, targetOf?, arrayOf?_bareField]
  cases arrayOf? targetsLabel.toList fs with
  | none => rfl
  | some targets =>
    rw [Option.map_some, Option.bind_some, Option.bind_some, Tree.elementExprs_bare, List.head?_map]
    cases targets.elementExprs.head? with
    | none => rfl
    | some target =>
      simp only [Option.map_some, Option.filter, Tree.isNode_bare]
      split <;> rfl

theorem missingTarget_bareField (fs : List Field) :
    missingTarget (fs.map bareField) = missingTarget fs := by
  rw [missingTarget, missingTarget, lookup?_bareField]
  cases lookup? targetsLabel.toList fs with
  | none => rfl
  | some f =>
    obtain ⟨label, value⟩ := f
    cases value with
    | none => rfl
    | some value =>
      simp only [Option.map_some, Option.bind_some, bareField, Tree.isNode_bare, Tree.elements_bare,
        List.isEmpty_map]

theorem isCall_of_targetOf? (h : IsCall (budget + 2) others call)
    (htarget : targetOf? (fields call) = some target) : IsCall budget (besides target) target := by
  have hmap := @targetSite?_map _ _ call.site h
  obtain ⟨site, hsite, rfl⟩ := Option.map_eq_some_iff.1 (hmap.trans htarget)
  obtain ⟨_, _, _, _, hleads, _⟩ := @target_leads _ _ call.site site h hsite
  exact hleads.holds

theorem wiredName?_bare (h : IsCall (budget + 3) others call) (d : Dependency) :
    wiredName? d (fields call.bare) = wiredName? d (fields call) := by
  rw [wiredName?, wiredName?, nameIn?_bare h, fields_bare h, targetOf?_bareField]
  congr 1
  funext name
  cases htarget : targetOf? (fields call) with
  | none => rfl
  | some target => exact wanting_bare (isCall_of_targetOf? h htarget) name d.products

theorem wireNotes_bare (h : IsCall (budget + 3) others call) (package : String)
    (products : List String) :
    wireNotes package products (fields call.bare) = wireNotes package products (fields call) := by
  rw [wireNotes, wireNotes, fields_bare h, targetOf?_bareField, missingTarget_bareField]
  cases htarget : targetOf? (fields call) with
  | none => rfl
  | some target => exact useNotes_bare (isCall_of_targetOf? h htarget) package products

theorem notes_bare (h : IsCall (budget + 3) others call) (d : Dependency) :
    notes d (fields call.bare) = notes d (fields call) := by
  simp only [notes, declareNotes_bare h, nameIn?_bare h, wireNotes_bare h]

end Bare

/-! ## What a run does -/

namespace AddsTo

variable {d : Dependency} {call : Tree} {o : Outcome} {name : Option String}
  {declared wired : Option Tree}

theorem lookup?_targets (h : AddsTo d call o name declared wired) :
    lookup? targetsLabel.toList (fields (declared.getD call)) =
      lookup? targetsLabel.toList (fields call) :=
  h.declares.lookup? (by decide)

theorem targetOf?_eq (h : AddsTo d call o name declared wired) :
    targetOf? (fields (declared.getD call)) = targetOf? (fields call) := by
  rw [targetOf?, targetOf?, arrayOf?, arrayOf?, h.lookup?_targets]

theorem diagnostics_eq (h : AddsTo d call o name declared wired) :
    o.diagnostics = notes d (fields call) := by
  have hwire (package : String) (products : List String) :
      wireNotes package products (fields (declared.getD call)) =
        wireNotes package products (fields call) := by
    rw [wireNotes, wireNotes, h.targetOf?_eq, missingTarget, missingTarget, h.lookup?_targets]
  rw [h.diagnostics, notes, ← h.declares.determined.1]
  simp only [hwire]

theorem isSome_wired (h : AddsTo d call o name declared wired) :
    wired.isSome = (wiredName? d (fields call)).isSome := by
  rw [wiredName?, ← h.declares.determined.1]
  cases name with
  | none =>
    rw [h.unnamed rfl]
    rfl
  | some name =>
    rw [(h.wires name rfl).determined, h.targetOf?_eq]
    cases hany : (targetOf? (fields call)).any (wanting name d.products) <;> simp [hany]

theorem changed_eq (h : AddsTo d call o name declared wired) :
    o.changed = (undeclared d (fields call) || (wiredName? d (fields call)).isSome) := by
  rw [h.changed, h.isSome_wired, h.declares.determined.2]

theorem alters_declaration (h : AddsTo d call o name declared wired) :
    Alters (Loses isEmptyInline (fields call)) (addDeclaration d (fields call)) call
      (declared.getD call) := by
  have hedited := h.declares.determined.2
  rw [addDeclaration, ← hedited]
  cases hdeclared : declared with
  | none => exact .refl _ call
  | some new => exact h.alters new hdeclared

theorem alters_products (h : AddsTo d call o name declared wired) :
    Alters ((wiredName? d (fields call)).isSome = true ∧
        ∃ target, targetOf? (fields call) = some target ∧ Loses isPlainInline (fields target))
      (addProducts d (fields call)) (declared.getD call) (wired.getD (declared.getD call)) := by
  have hsome := h.isSome_wired
  rw [addProducts]
  cases hwired : wired with
  | none =>
    rw [hwired, Option.isSome_none, eq_comm, Option.isSome_eq_false_iff,
      Option.isNone_iff_eq_none] at hsome
    rw [hsome]
    exact .refl _ _
  | some new =>
    rw [hwired] at hsome
    obtain ⟨n, hn⟩ := Option.isSome_iff_exists.1 hsome.symm
    have hname := (Option.filter_eq_some_iff.1 hn).1
    rw [← h.declares.determined.1] at hname
    obtain ⟨target, htarget, halters⟩ := h.altersTarget n hname new hwired
    rw [h.targetOf?_eq] at htarget
    rw [hn]
    exact halters.mono fun hloses => ⟨rfl, target, htarget, hloses⟩

/-- What a run does to the call comes to adding the dependency to the call without trivia. -/
theorem alters_call {budget : Nat} {others : List Tree} (h : AddsTo d call o name declared wired)
    (hcall : IsCall (budget + 3) others call) :
    Alters (LosesBlanks d call) (addToCall d) call (wired.getD (declared.getD call)) := by
  -- Both steps were decided on the fields of the call, and those without trivia decide alike.
  refine (h.alters_declaration.trans h.alters_products).congr ?_
  rw [addToCall, addProducts, addProducts, addDeclaration, addDeclaration, undeclared_bare hcall,
    wiredName?_bare hcall]

end AddsTo

/-! ## Formatting -/

/-- When trivia is left out of account, an addition does what its meaning says. -/
theorem add_meaning (indent : Option IndentStyle) (d : Dependency) {root : Tree}
    (h : Faithful root) :
    ∃ o, add indent root d = .ok o ∧ { o with tree := o.tree.bare } = meaning d root.bare := by
  have hbare := packageCall?_bare root
  rw [meaning]
  cases hfound : packageCall? root with
  | none =>
    rw [hfound, Option.map_none, Option.map_eq_none_iff] at hbare
    rw [hbare]
    exact ⟨_, add_of_noRoot indent d hfound, rfl⟩
  | some call =>
    obtain ⟨o, name, declared, wired, hadd, hrun, htree, hcall', _⟩ := add_run indent d h hfound
    obtain ⟨_, hroot, _⟩ := packageCall_place h hfound
    have hcall : IsCall 255 (besides call.tree) call.tree := hroot.holds
    rw [hfound] at hbare
    obtain ⟨plain, hplain, htrees⟩ := Option.map_eq_some_iff.1 hbare
    obtain ⟨build, htraces⟩ := packageCall_traces hfound
    have hset : o.tree = build (wired.getD (declared.getD call.tree)) := by
      rw [htree, show root = _ from htraces.tree_eq, htraces.spot.set]
    have hsolid : (wired.getD (declared.getD call.tree)).isTrivia = false := by
      obtain ⟨_, htraces'⟩ := packageCall_traces hcall'
      exact htraces'.solid
    have halters := htraces.alters hsolid (hrun.alters_call hcall).bare.symm
    refine ⟨o, hadd, ?_⟩
    rw [hplain]
    simp only [htrees]
    rw [hset, ← halters, hrun.changed_eq, hrun.diagnostics_eq, undeclared_bare hcall,
      wiredName?_bare hcall, notes_bare hcall]
    rfl

/-- Two manifests that are the same without their trivia are the same after an addition, and the
addition reports the same of both. -/
theorem add_ignores_formatting {source source' : String} {root root' : Tree}
    (indent indent' : Option IndentStyle) (d : Dependency) (h : parse source = .ok root)
    (h' : parse source' = .ok root') (hsame : root.bare = root'.bare) :
    ∃ o o', add indent root d = .ok o ∧ add indent' root' d = .ok o' ∧ o.changed = o'.changed ∧
      o.diagnostics = o'.diagnostics ∧ o.tree.bare = o'.tree.bare := by
  obtain ⟨o, hadd, hmeaning⟩ := add_meaning indent d (faithful_of_parse h)
  obtain ⟨o', hadd', hmeaning'⟩ := add_meaning indent' d (faithful_of_parse h')
  rw [hsame, ← hmeaning'] at hmeaning
  obtain ⟨htree, hchanged, hnotes⟩ := Outcome.mk.inj hmeaning
  exact ⟨o, o', hadd, hadd', hchanged, hnotes, htree⟩

/-- A manifest on one line, whose arrays are written anew, and the same with line breaks and
comments, where a reference is appended. -/
theorem add_ignores_formatting_line_and_lines :
    ∃ root root' o o', parse "let p = Package(name: \"x\", targets: [.t(dependencies: [c])])" =
        .ok root ∧
      parse ("let p = Package( // p\n  name: \"x\",\n" ++
        "  targets: [.t(dependencies: [\n    c // c\n  ])]\n)\n") = .ok root' ∧
      root.bare = root'.bare ∧
      add none root ⟨"a", "https://h/a", .version "1", ["A"]⟩ = .ok o ∧
      add (some .tabs) root' ⟨"a", "https://h/a", .version "1", ["A"]⟩ = .ok o' ∧
      o.changed = o'.changed ∧ o.diagnostics = o'.diagnostics ∧ o.tree.bare = o'.tree.bare := by
  have hok : (parse "let p = Package(name: \"x\", targets: [.t(dependencies: [c])])").isOk =
      true := by
    decide +kernel
  have hok' : (parse ("let p = Package( // p\n  name: \"x\",\n" ++
      "  targets: [.t(dependencies: [\n    c // c\n  ])]\n)\n")).isOk = true := by
    decide +kernel
  have hbare : (parse "let p = Package(name: \"x\", targets: [.t(dependencies: [c])])").toOption.map
        Tree.bare =
      (parse ("let p = Package( // p\n  name: \"x\",\n" ++
        "  targets: [.t(dependencies: [\n    c // c\n  ])]\n)\n")).toOption.map Tree.bare := by
    decide +kernel
  obtain ⟨root, hroot⟩ := RoundTrip.exists_of_isOk hok
  obtain ⟨root', hroot'⟩ := RoundTrip.exists_of_isOk hok'
  rw [hroot, hroot'] at hbare
  have hsame : root.bare = root'.bare := Option.some.inj hbare
  obtain ⟨o, o', hadd⟩ := add_ignores_formatting none (some .tabs) _ hroot hroot' hsame
  exact ⟨root, root', o, o', hroot, hroot', hsame, hadd⟩

end PackageManifest.Proofs.Addition
