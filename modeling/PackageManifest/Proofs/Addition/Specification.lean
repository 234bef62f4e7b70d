import PackageManifest.Proofs.Addition.Wiring

/-!
# Adding a dependency

Adding a dependency to a manifest never fails. It declares the dependency in the call of `Package`,
puts its products into the first target, and changes nothing else.
-/

namespace PackageManifest.Proofs.Addition

open Source Grammar Lexing Edits Snippets PackageManifest.Addition

/-- What adding a dependency does to a manifest: the new tree, none if it stays as it is. -/
inductive Adds (d : Dependency) (root : Tree) : Option Tree → Prop
  | noRoot : packageCall? root = none → Adds d root none
  | noPlace {call : Site} :
      packageCall? root = some call → Declares d call.tree none none → Adds d root none
  | kept {call : Site} {name : String} :
      packageCall? root = some call → Declares d call.tree (some name) none →
      Wires name d.products call.tree none → Adds d root none
  /-- The call of `Package` is replaced by what it became. -/
  | edited {call : Site} {name : String} {declared wired : Option Tree} {new : Tree} :
      packageCall? root = some call → Declares d call.tree (some name) declared →
      Wires name d.products (declared.getD call.tree) wired →
      (declared.isSome || wired.isSome) = true → new = wired.getD (declared.getD call.tree) →
      packageCall? (root.set call.path new) = some ⟨call.path, new⟩ →
      Adds d root (some (root.set call.path new))

/-- What a run that adds a dependency and ends in `o` does to the call of `Package`. The products go
by `name`. The call is `declared` after the declaration and `wired` after the products were put into
the first target, none where it stays as it is. -/
structure AddsTo (d : Dependency) (call : Tree) (o : Outcome) (name : Option String)
    (declared wired : Option Tree) : Prop where
  declares : Declares d call name declared
  wires : ∀ n ∈ name, Wires n d.products (declared.getD call) wired
  unnamed : name = none → wired = none
  changed : o.changed = (declared.isSome || wired.isSome)
  diagnostics : o.diagnostics = declareNotes d (fields call) ++
    name.elim [] fun n => wireNotes n d.products (fields (declared.getD call))
  alters : ∀ new ∈ declared, Alters (Loses isEmptyInline (fields call))
    (extend packageAnchors [(packageTree d).bare]) call new
  altersTarget : ∀ n ∈ name, ∀ new ∈ wired, ∃ target,
    targetOf? (fields (declared.getD call)) = some target ∧
      Alters (Loses isPlainInline (fields target)) (alterTarget (use n d.products))
        (declared.getD call) new

/-- Adding a dependency where there is a call of `Package` replaces that call. -/
theorem add_run (indent : Option IndentStyle) (d : Dependency) {root : Tree} {call : Site}
    (h : Faithful root) (hcall : packageCall? root = some call) :
    ∃ o name declared wired, add indent root d = .ok o ∧
      AddsTo d call.tree o name declared wired ∧
      o.tree = root.set call.path (wired.getD (declared.getD call.tree)) ∧
      packageCall? o.tree = some ⟨call.path, wired.getD (declared.getD call.tree)⟩ ∧
      Faithful o.tree := by
  obtain ⟨around, hroot, hplace⟩ := packageCall_place h hcall
  have hset {final : Tree} {new : Tree}
      (hfinal : Filled around (IsCall 255 (besides call.tree)) final new) :
      final = root.set call.path new := by
    rw [hfinal.tree_eq, hroot.tree_eq]
    exact (hplace.spot.set call.tree new).symm
  rw [add, addWith]
  simp only [hcall]
  obtain ⟨mid, name, declared, hdeclare, hdeclares, hmid, hchanged, hnotes, halters⟩ :=
    declare_spec (layoutOf indent root) d hplace (o := { tree := root }) hroot
  have hdeclare : declare (layoutOf indent root) { tree := root } call d = .ok ⟨mid, name⟩ :=
    hdeclare
  rw [Bool.false_or] at hchanged
  rw [List.nil_append] at hnotes
  simp only [hdeclare]
  cases name with
  | none =>
    refine ⟨mid, none, declared, none, rfl, ?_, hset hmid, hmid.found hplace, hmid.faithful⟩
    exact {
      declares := hdeclares
      wires := nofun
      unnamed := fun _ => rfl
      changed := hchanged.trans (Bool.or_false _).symm
      diagnostics := hnotes.trans (List.append_nil _).symm
      alters := halters
      altersTarget := nofun }
  | some name =>
    obtain ⟨o, wired, hwire, hwires, hdone, hchanges, hmore, haltersTarget⟩ :=
      wire_spec (layoutOf indent root) name d.products hplace hmid
    refine ⟨o, some name, declared, wired, hwire, ?_, hset hdone, hdone.found hplace,
      hdone.faithful⟩
    exact {
      declares := hdeclares
      wires := by
        rintro _ ⟨⟩
        exact hwires
      unnamed := nofun
      changed := by rw [hchanges, hchanged]
      diagnostics := by
        rw [hmore, hnotes]
        rfl
      alters := halters
      altersTarget := by
        rintro _ ⟨⟩
        exact haltersTarget }

theorem add_of_noRoot (indent : Option IndentStyle) (d : Dependency) {root : Tree}
    (h : packageCall? root = none) :
    add indent root d = .ok (Outcome.note { tree := root } .noRootPackage) := by
  rw [add, addWith]
  simp only [h]

/-- Adding a dependency always succeeds, and what it leaves is the tree of its text. -/
theorem add_spec (indent : Option IndentStyle) (d : Dependency) {root : Tree}
    (h : Faithful root) :
    ∃ o edited, add indent root d = .ok o ∧ Adds d root edited ∧ o.tree = edited.getD root ∧
      Faithful o.tree ∧ o.changed = edited.isSome := by
  cases hcall : packageCall? root with
  | none => exact ⟨_, none, add_of_noRoot indent d hcall, .noRoot hcall, rfl, h, rfl⟩
  | some call =>
    obtain ⟨o, name, declared, wired, hadd, hrun, htree, hfound, hfaithful⟩ :=
      add_run indent d h hcall
    cases hany : (declared.isSome || wired.isSome) with
    | true =>
      have hdeclares := hrun.declares
      have hwires := hrun.wires
      cases name with
      | none =>
        rw [hrun.unnamed rfl] at hany
        cases hdeclares
        cases hany
      | some name =>
        rw [htree] at hfound
        exact ⟨o, some _, hadd, .edited hcall hdeclares (hwires name rfl) hany rfl hfound, htree,
          hfaithful, hrun.changed.trans hany⟩
    | false =>
      rw [Bool.or_eq_false_iff, Option.isSome_eq_false_iff, Option.isSome_eq_false_iff,
        Option.isNone_iff_eq_none, Option.isNone_iff_eq_none] at hany
      obtain ⟨rfl, rfl⟩ := hany
      refine ⟨o, none, hadd, ?_, ?_, hfaithful, hrun.changed⟩
      · cases name with
        | none => exact .noPlace hcall hrun.declares
        | some name => exact .kept hcall hrun.declares (hrun.wires name rfl)
      · obtain ⟨around, hroot, hplace⟩ := packageCall_place h hcall
        rw [htree, Option.getD_none, Option.getD_none, Option.getD_none, hroot.tree_eq]
        exact hplace.spot.set call.tree call.tree

/-- Adding a dependency to a manifest that parses does what is specified. -/
theorem add_meets_specification {source : String} {root : Tree} (indent : Option IndentStyle)
    (d : Dependency) (h : parse source = .ok root) :
    ∃ o edited, add indent root d = .ok o ∧ Adds d root edited ∧ o.tree = edited.getD root := by
  obtain ⟨o, edited, hadd, hadds, htree, _, _⟩ := add_spec indent d (faithful_of_parse h)
  exact ⟨o, edited, hadd, hadds, htree⟩

/-- A manifest that declares the package without a name, and whose target uses something else. -/
theorem add_meets_specification_unnamed :
    ∃ root o edited, parse ("let p = Package(dependencies: [.package(url: \"H/a.git\")], " ++
        "targets: [.t(dependencies: [c])])") = .ok root ∧
      add none root ⟨"b", "h/a", .version "1", ["A"]⟩ = .ok o ∧
      Adds ⟨"b", "h/a", .version "1", ["A"]⟩ root edited ∧ o.tree = edited.getD root := by
  have hok : (parse ("let p = Package(dependencies: [.package(url: \"H/a.git\")], " ++
      "targets: [.t(dependencies: [c])])")).isOk = true := by
    decide +kernel
  obtain ⟨root, hroot⟩ := RoundTrip.exists_of_isOk hok
  obtain ⟨o, edited, hadd⟩ := add_meets_specification none _ hroot
  exact ⟨root, o, edited, hroot, hadd⟩

end PackageManifest.Proofs.Addition
