import PackageManifest.Proofs.Addition.Reports
import PackageManifest.Proofs.Locations

/-!
# A package is declared once

Main statement: `add_of_spelled`. Where a location is listed in any spelling, adding the same
location in any other spelling lists nothing more, and says once that the package is there.
-/

namespace PackageManifest.Proofs.Addition

open Source Grammar Lexing Edits Snippets PackageManifest.Addition

def isDuplicate : Diagnostic → Bool
  | .duplicatePackage _ _ => true
  | _ => false

/-! ## What is not said of the package -/

theorem isDuplicate_provisionNotes {what : String} {candidates : List String} {fs : List Field} :
    ∀ n ∈ provisionNotes what candidates fs, isDuplicate n = false := by
  intro n hn
  rw [provisionNotes] at hn
  split at hn
  · cases hn
  · split at hn <;> · cases List.mem_singleton.1 hn; rfl

theorem isDuplicate_missingTarget (fs : List Field) : isDuplicate (missingTarget fs) = false := by
  unfold missingTarget
  split
  · rfl
  · split
    · rfl
    · split <;> rfl

theorem isDuplicate_wireNotes {package : String} {products : List String} {fs : List Field} :
    ∀ n ∈ wireNotes package products fs, isDuplicate n = false := by
  intro n hn
  rw [wireNotes] at hn
  split at hn
  · rw [List.mem_singleton.1 hn]
    exact isDuplicate_missingTarget fs
  · rw [useNotes, List.mem_append] at hn
    rcases hn with hn | hn
    · obtain ⟨product, _, rfl⟩ := List.mem_map.1 hn
      rfl
    · split at hn
      · cases hn
      · exact isDuplicate_provisionNotes n hn

/-! ## A package that is declared -/

section Declared

variable {d : Dependency} {call : Tree} {o : Outcome} {name : Option String}
  {declared wired : Option Tree} {first : String}

/-- Where the call lists the package, nothing is declared, and that is said once. -/
theorem AddsTo.of_listed (h : AddsTo d call o name declared wired)
    (hfirst : (listed (fields call)).findSome? (declaredName? d.url) = some first) :
    arrayOf? dependenciesLabel.toList (fields (wired.getD (declared.getD call))) =
        arrayOf? dependenciesLabel.toList (fields call) ∧
      o.diagnostics.filter isDuplicate = [.duplicatePackage d.url first] := by
  have hdeclared : declared = none := by
    have hsome := h.declares.determined.2
    rw [undeclared, hfirst, Option.isNone_some, Bool.and_false] at hsome
    exact Option.isNone_iff_eq_none.1 (Option.isSome_eq_false_iff.1 hsome)
  subst hdeclared
  have hnotes : declareNotes d (fields call) = [.duplicatePackage d.url first] := by
    rw [declareNotes, hfirst]
  have hdiagnostics := h.diagnostics
  rw [hnotes] at hdiagnostics
  cases name with
  | none =>
    rw [h.unnamed rfl, hdiagnostics]
    exact ⟨rfl, rfl⟩
  | some name =>
    refine ⟨?_, ?_⟩
    · rw [arrayOf?, (h.wires name rfl).lookup? (by decide)]
      rfl
    · rw [hdiagnostics, List.filter_append, Option.elim_some,
        List.filter_eq_nil_iff.2 fun n hn => Bool.eq_false_iff.1 (isDuplicate_wireNotes n hn)]
      rfl

end Declared

/-- If the package is listed in one spelling of its location, it is not added in another. -/
theorem add_of_spelled {source : String} {root expr : Tree} {call array : Site}
    {base existing : List Char} (indent : Option IndentStyle) (d : Dependency)
    (h : parse source = .ok root) (hcall : packageCall? root = some call)
    (harray : argumentArray? call dependenciesLabel = some array)
    (hexpr : expr ∈ array.tree.elementExprs) (hmember : expr.isMemberCall "package".toList = true)
    (hurl : expr.stringArgument? "url".toList = some existing)
    (hbase : Repository.IsBase base) (hexisting : Repository.Spells base existing)
    (hnew : Repository.Spells base d.url.toList) :
    ∃ o call' array' name, add indent root d = .ok o ∧ packageCall? o.tree = some call' ∧
      argumentArray? call' dependenciesLabel = some array' ∧ array'.tree = array.tree ∧
      IsDeclared d.url root name ∧
      o.diagnostics.filter isDuplicate = [.duplicatePackage d.url name] := by
  obtain ⟨o, name, declared, wired, hadd, hrun, -, hfound, -⟩ :=
    add_run indent d (faithful_of_parse h) hcall
  have hlisted : arrayOf? dependenciesLabel.toList (fields call.tree) = some array.tree := by
    rw [← argumentArray?_map, harray, Option.map_some]
  have hsame : Repository.normalForm existing = Repository.normalForm d.url.toList := by
    rw [Repository.normalForm_of_spells hbase hexisting, Repository.normalForm_of_spells hbase hnew]
  have hdeclares : (declaredName? d.url expr).isSome = true := by
    rw [declaredName?, if_pos hmember, hurl]
    simp only [hsame, if_true, Option.isSome_some]
  obtain ⟨first, hfirst⟩ := Option.isSome_iff_exists.1
    (List.findSome?_isSome_iff.2 ⟨expr, listed_eq hlisted ▸ hexpr, hdeclares⟩)
  obtain ⟨hkept, hreported⟩ := hrun.of_listed hfirst
  rw [hlisted, ← argumentArray?_map ⟨call.path, _⟩] at hkept
  obtain ⟨array', harray', htree⟩ := Option.map_eq_some_iff.1 hkept
  exact ⟨o, _, array', first, hadd, hfound, harray', htree, isDeclared_of_findSome? hcall hfirst,
    hreported⟩

/-- The second of two declarations has the location with other capitals, `.git` and two slashes; the
new one stands between blanks. Its product is used in the first target. -/
theorem add_of_spelled_second :
    ∃ source root expr call array,
      source = "let p = Package(dependencies: [.package(path: \"b\"), .package(url: " ++
        "\"H/A.Git//\")], targets: [.target(dependencies: [])])" ∧
      parse source = .ok root ∧ packageCall? root = some call ∧
      argumentArray? call dependenciesLabel = some array ∧ expr ∈ array.tree.elementExprs ∧
      expr.isMemberCall "package".toList = true ∧
      expr.stringArgument? "url".toList = some "H/A.Git//".toList ∧
      Repository.IsBase ['h', '/', 'a'] ∧
      Repository.Spells ['h', '/', 'a'] "H/A.Git//".toList ∧
      Repository.Spells ['h', '/', 'a'] " H/a\n".toList ∧
      ∃ o call' array' name,
        add none root ⟨"a", " H/a\n", .version "1", ["A"]⟩ = .ok o ∧
        packageCall? o.tree = some call' ∧
        argumentArray? call' dependenciesLabel = some array' ∧ array'.tree = array.tree ∧
        IsDeclared " H/a\n" root name ∧
        o.diagnostics.filter isDuplicate = [.duplicatePackage " H/a\n" name] := by
  have hfound : ((parse ("let p = Package(dependencies: [.package(path: \"b\"), .package(url: " ++
      "\"H/A.Git//\")], targets: [.target(dependencies: [])])")).toOption.bind fun root =>
        (packageCall? root).bind fun call =>
          (argumentArray? call dependenciesLabel).bind fun array =>
            array.tree.elementExprs[1]?.map fun expr =>
              (expr.isMemberCall "package".toList, expr.stringArgument? "url".toList)) =
        some (true, some "H/A.Git//".toList) := by
    decide +kernel
  obtain ⟨root, hroot, hfound⟩ := Option.bind_eq_some_iff.1 hfound
  obtain ⟨call, hcall, hfound⟩ := Option.bind_eq_some_iff.1 hfound
  obtain ⟨array, harray, hfound⟩ := Option.bind_eq_some_iff.1 hfound
  obtain ⟨expr, hexpr, hfound⟩ := Option.map_eq_some_iff.1 hfound
  obtain ⟨hmember, hurl⟩ := Prod.mk.inj hfound
  have hroot := RoundTrip.eq_ok_of_toOption hroot
  have hexpr := List.mem_of_getElem? hexpr
  have hbase : Repository.IsBase ['h', '/', 'a'] := {
    ascii := List.all_iff_forall_prop.1 (by decide)
    nonempty := by decide
    head := by
      rintro _ ⟨⟩
      decide
    last := by
      rintro _ ⟨⟩
      decide
    noSlash := by decide
    noGit := by decide }
  have hexisting : Repository.Spells ['h', '/', 'a'] "H/A.Git//".toList := by
    rw [show "H/A.Git//".toList = [] ++ (['H', '/', 'A'] ++ ['.', 'G', 'i', 't'] ++
      List.replicate 2 '/') ++ [] by decide +kernel]
    exact .intro 2 nofun rfl (.inr rfl) nofun
  have hnew : Repository.Spells ['h', '/', 'a'] " H/a\n".toList := by
    rw [show " H/a\n".toList = [' '] ++ (['H', '/', 'a'] ++ [] ++ List.replicate 0 '/') ++
      ['\n'] by decide +kernel]
    exact .intro 0 (List.all_iff_forall_prop.1 (by decide)) rfl (.inl rfl)
      (List.all_iff_forall_prop.1 (by decide))
  exact ⟨_, root, expr, call, array, rfl, hroot, hcall, harray, hexpr, hmember, hurl, hbase,
    hexisting, hnew, add_of_spelled none ⟨"a", " H/a\n", .version "1", ["A"]⟩ hroot hcall
      harray hexpr hmember hurl hbase hexisting hnew⟩

end PackageManifest.Proofs.Addition
