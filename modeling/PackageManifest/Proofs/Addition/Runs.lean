import PackageManifest.Proofs.Addition.Specification

/-!
# Adding one dependency after the other

The tree that an addition leaves is the tree of its text, so it makes no difference whether the next
addition goes on with that tree or parses the text again. An addition that is made a second time
changes nothing.
-/

namespace PackageManifest.Proofs.Addition

open Source Grammar Lexing Edits Snippets PackageManifest.Addition

/-! ## Trees and texts -/

def asText (o : Outcome) : TextOutcome := ⟨o.tree.print, o.changed, o.diagnostics⟩

/-- The outcomes of adding dependencies, each to the tree that the one before it left. -/
def addAll (indent : Option IndentStyle) (root : Tree) :
    List Dependency → Except Failure (List Outcome)
  | [] => .ok []
  | d :: ds =>
    match add indent root d with
    | .error e => .error e
    | .ok o =>
      match addAll indent o.tree ds with
      | .error e => .error e
      | .ok os => .ok (o :: os)

def addAllText (indent : Option IndentStyle) (text : String) :
    List Dependency → Except Failure (List TextOutcome)
  | [] => .ok []
  | d :: ds =>
    match addText indent text d with
    | .error e => .error e
    | .ok o =>
      match addAllText indent o.text ds with
      | .error e => .error e
      | .ok os => .ok (o :: os)

/-- On the text of a faithful tree an addition does what it does on the tree. -/
theorem addText_print {indent : Option IndentStyle} {root : Tree} {d : Dependency} {o : Outcome}
    (h : Faithful root) (ho : add indent root d = .ok o) :
    addText indent root.print d = .ok (asText o) := by
  rw [addText, show parse root.print = .ok root from h]
  simp only [ho, asText]

theorem add_faithful (indent : Option IndentStyle) (d : Dependency) {root : Tree}
    (h : Faithful root) : ∃ o, add indent root d = .ok o ∧ Faithful o.tree := by
  obtain ⟨o, edited, hadd, _, _, hfaithful, _⟩ := add_spec indent d h
  exact ⟨o, hadd, hfaithful⟩

/-- Every addition of a run leaves a faithful tree, and the run on texts goes along with it. -/
theorem addAll_spec (indent : Option IndentStyle) (ds : List Dependency) {root : Tree}
    (h : Faithful root) :
    ∃ os, addAll indent root ds = .ok os ∧ os.length = ds.length ∧
      (∀ o ∈ os, Faithful o.tree) ∧ addAllText indent root.print ds = .ok (os.map asText) := by
  induction ds generalizing root with
  | nil => exact ⟨[], rfl, rfl, by simp, rfl⟩
  | cons d ds ih =>
    obtain ⟨o, hadd, ho⟩ := add_faithful indent d h
    obtain ⟨os, hall, hlength, hos, htexts⟩ := ih ho
    refine ⟨o :: os, ?_, ?_, ?_, ?_⟩
    · simp only [addAll, hadd, hall]
    · rw [List.length_cons, List.length_cons, hlength]
    · intro o' ho'
      rcases List.mem_cons.1 ho' with rfl | ho'
      · exact ho
      · exact hos o' ho'
    · have htext : addAllText indent (asText o).text ds = .ok (os.map asText) := htexts
      simp only [addAllText, addText_print h hadd, htext, List.map_cons]

/-- Every tree of a run parses back from its text, and the run is the same on trees and on texts. -/
theorem addAll_faithful {source : String} {root : Tree} (indent : Option IndentStyle)
    (ds : List Dependency) (h : parse source = .ok root) :
    ∃ os, addAll indent root ds = .ok os ∧ os.length = ds.length ∧
      (∀ t ∈ root :: os.map Outcome.tree, parse t.print = .ok t) ∧
      addAllText indent source ds =
        .ok (os.map fun o => ⟨o.tree.print, o.changed, o.diagnostics⟩) := by
  have hroot := faithful_of_parse h
  have hprint : root.print = source := RoundTrip.print_of_tokens (RoundTrip.tokens_of_parseText h)
  obtain ⟨os, hall, hlength, hos, htexts⟩ := addAll_spec indent ds hroot
  rw [hprint] at htexts
  refine ⟨os, hall, hlength, fun t ht => ?_, htexts⟩
  rcases List.mem_cons.1 ht with rfl | ht
  · exact hroot
  · obtain ⟨o, ho, rfl⟩ := List.mem_map.1 ht
    exact hos o ho

/-- Two dependencies, the second with a quote in its name, and a manifest that ends in a comment. -/
theorem addAll_faithful_two_dependencies :
    ∃ root os, parse "let p = Package(name: \"x\" // end\n)" = .ok root ∧
      addAll none root [⟨"a", "https://h/a", .version "1", ["A"]⟩,
        ⟨"\"", "https://h/b", .branch "b", []⟩] = .ok os ∧ os.length = 2 ∧
      (∀ t ∈ root :: os.map Outcome.tree, parse t.print = .ok t) ∧
      addAllText none "let p = Package(name: \"x\" // end\n)"
        [⟨"a", "https://h/a", .version "1", ["A"]⟩, ⟨"\"", "https://h/b", .branch "b", []⟩] =
        .ok (os.map fun o => ⟨o.tree.print, o.changed, o.diagnostics⟩) := by
  have hok : (parse "let p = Package(name: \"x\" // end\n)").isOk = true := by decide +kernel
  obtain ⟨root, hroot⟩ := RoundTrip.exists_of_isOk hok
  obtain ⟨os, hrun⟩ := addAll_faithful none _ hroot
  exact ⟨root, os, hroot, hrun⟩

/-! ## The same dependency again -/

/-- There is nothing left to declare in a call, and nothing left to put into its first target. -/
def Finished (d : Dependency) (call : Tree) : Prop :=
  undeclared d (fields call) = false ∧
    ∀ name, nameIn? d (fields call) = some name →
      (targetOf? (fields call)).any (wanting name d.products) = false

/-- Putting products into the first target leaves the declaration alone. -/
theorem finished_of_wires {d : Dependency} {call : Tree} {name : String}
    {declared wired : Option Tree} (hdeclares : Declares d call (some name) declared)
    (hwires : Wires name d.products (declared.getD call) wired) :
    Finished d (wired.getD (declared.getD call)) := by
  obtain ⟨hname, hdeclared⟩ := hdeclares.settled
  have hlabels : ∀ label ∈ dependenciesLabel :: packageAnchors,
      label.toList ≠ targetsLabel.toList := by decide
  obtain ⟨hsame, hsame'⟩ :=
    nameIn?_congr d fun label hlabel => hwires.lookup? (hlabels label hlabel)
  rw [Finished, hsame, hsame', hname]
  refine ⟨hdeclared, fun name' hname' => ?_⟩
  obtain rfl := Option.some.inj hname'
  exact hwires.settled

theorem Adds.finished {d : Dependency} {root : Tree} {edited : Option Tree}
    (h : Adds d root edited) {call : Site} (hcall : packageCall? (edited.getD root) = some call) :
    Finished d call.tree := by
  cases h with
  | noRoot hnone =>
    rw [Option.getD_none, hnone] at hcall
    cases hcall
  | noPlace hfound hdeclares =>
    obtain rfl := Option.some.inj (hfound.symm.trans hcall)
    obtain ⟨hname, hdeclared⟩ := hdeclares.settled
    refine ⟨hdeclared, fun name hsome => ?_⟩
    cases hname.symm.trans hsome
  | kept hfound hdeclares hwires =>
    obtain rfl := Option.some.inj (hfound.symm.trans hcall)
    exact finished_of_wires hdeclares hwires
  | edited _ hdeclares hwires _ hnew hfound =>
    obtain rfl := Option.some.inj (hfound.symm.trans hcall)
    rw [hnew]
    exact finished_of_wires hdeclares hwires

/-- Where nothing is left to add, an addition changes nothing. -/
theorem Adds.eq_none {d : Dependency} {root : Tree} {edited : Option Tree} (h : Adds d root edited)
    (hfinished : ∀ call, packageCall? root = some call → Finished d call.tree) :
    edited = none := by
  cases h with
  | edited hcall hdeclares hwires hany _ _ =>
    obtain ⟨hundeclared, hwanting⟩ := hfinished _ hcall
    obtain ⟨hname, hdeclared⟩ := hdeclares.determined
    rw [hundeclared, Option.isSome_eq_false_iff, Option.isNone_iff_eq_none] at hdeclared
    subst hdeclared
    have hwired := hwires.determined
    rw [Option.getD_none, hwanting _ hname.symm] at hwired
    rw [hwired] at hany
    cases hany
  | _ => rfl

/-- Adding a dependency to what adding it has left changes nothing. -/
theorem addText_again {source : String} {root : Tree} (first second : Option IndentStyle)
    (d : Dependency) (h : parse source = .ok root) :
    ∃ o, addText first source d = .ok o ∧
      ∃ o', addText second o.text d = .ok o' ∧ o'.changed = false ∧ o'.text = o.text := by
  have hroot := faithful_of_parse h
  have hprint : root.print = source := RoundTrip.print_of_tokens (RoundTrip.tokens_of_parseText h)
  obtain ⟨o, edited, hadd, hadds, htree, hfaithful, _⟩ := add_spec first d hroot
  obtain ⟨o', again, hadd', hadds', htree', _, hchanged'⟩ := add_spec second d hfaithful
  have htext := addText_print hroot hadd
  rw [hprint] at htext
  obtain rfl : again = none := by
    refine hadds'.eq_none fun call hcall => hadds.finished ?_
    rwa [← htree]
  refine ⟨asText o, htext, asText o', addText_print hfaithful hadd', hchanged', ?_⟩
  change o'.tree.print = o.tree.print
  rw [htree', Option.getD_none]

/-- A manifest whose only target has no dependencies yet, first with tabs and then as detected. -/
theorem addText_again_new_arrays :
    ∃ o, addText (some .tabs) "let p = Package(name: \"x\", targets: [.target(name: \"t\")])"
        ⟨"a", "https://h/a", .version "1", ["A"]⟩ = .ok o ∧
      ∃ o', addText none o.text ⟨"a", "https://h/a", .version "1", ["A"]⟩ = .ok o' ∧
        o'.changed = false ∧ o'.text = o.text := by
  have hok :
      (parse "let p = Package(name: \"x\", targets: [.target(name: \"t\")])").isOk = true := by
    decide +kernel
  obtain ⟨root, hroot⟩ := RoundTrip.exists_of_isOk hok
  exact addText_again _ _ _ hroot

end PackageManifest.Proofs.Addition
