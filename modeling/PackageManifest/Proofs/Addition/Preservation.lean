import PackageManifest.Proofs.Addition.Meaning
import PackageManifest.Proofs.Addition.Runs

/-!
# What an addition keeps

An addition replaces the argument list of the call of `Package` and nothing else. No comment and no
significant token of the manifest is lost, and where no array is written anew there are insertions
only.
-/

namespace PackageManifest.Proofs.Addition

open Source Grammar Lexing Edits Snippets PackageManifest.Addition

/-! ## The argument list -/

theorem get?_argumentList {root : Tree} {call list : Site} (hcall : packageCall? root = some call)
    (hlist : call.argumentList? = some list) : root.get? list.path = some list.tree := by
  obtain ⟨binding, hbinding, hvalue⟩ := Option.bind_eq_some_iff.1 hcall
  have hroot : root.get? root.site.path = some root.site.tree := by
    rw [Tree.site, Tree.get?]
  exact Site.get?_child? (Site.get?_child? (Site.get?_child? hroot hbinding) hvalue) hlist

theorem set_relisted {root new : Tree} {call list : Site} (hcall : packageCall? root = some call)
    (hlist : call.argumentList? = some list) (h : Relisted call.tree new) :
    ∃ list', root.set call.path new = root.set list.path list' := by
  obtain ⟨around, hcalls⟩ := packageCall_traces hcall
  obtain ⟨outer, q, hlists⟩ := Traces.child (fun t _ => Tree.blind_isNode _ t) hlist
  have hroot : root = around call.tree := hcalls.tree_eq
  have hset (new : Tree) : root.set call.path new = around new := by
    rw [hroot, hcalls.spot.set]
  have hset' (list' : Tree) : root.set list.path list' = around (call.tree.set q list') := by
    rw [hroot, hlists.path_eq, hcalls.spot]
  rcases h with rfl | ⟨found, list', hfound, _, rfl⟩
  · -- The list that is there may be set again.
    refine ⟨list.tree, ?_⟩
    rw [hset, hset', hlists.tree_eq, hlists.spot.set]
  · have hpath : found.path = q :=
      congrArg Site.path (Option.some.inj (hfound.symm.trans (child?_site hlist hlists.path_eq)))
    exact ⟨list', by rw [hset, hset', hpath]⟩

theorem Relisted.eq_of_none {new : Tree} {call : Site} (h : Relisted call.tree new)
    (hnone : call.argumentList? = none) : new = call.tree := by
  rcases h with rfl | ⟨list, _, hlist, _⟩
  · rfl
  · have hmap := call.child?_map (Tree.isNode .argumentList)
    have hmap' := call.tree.site.child?_map (Tree.isNode .argumentList)
    rw [show call.child? _ = _ from hnone] at hmap
    rw [show call.tree.site.child? _ = _ from hlist] at hmap'
    cases hmap.trans hmap'.symm

/-! ## What is kept -/

/-- An addition keeps what was there and sets another argument list at most. -/
theorem add_keeps (indent : Option IndentStyle) (d : Dependency) {root : Tree} {call : Site}
    (h : Faithful root) (hcall : packageCall? root = some call) :
    ∃ o, add indent root d = .ok o ∧ Faithful o.tree ∧
      Keeps (LosesBlanks d call.tree) root.tokens o.tree.tokens ∧
      (call.argumentList? = none → o.tree = root) ∧
      ∀ list, call.argumentList? = some list → ∃ list', o.tree = root.set list.path list' := by
  obtain ⟨o, name, declared, wired, hadd, hrun, htree, _, hfaithful⟩ := add_run indent d h hcall
  obtain ⟨around, hroot, hplace⟩ := packageCall_place h hcall
  have halters := hrun.alters_call hroot.holds
  have hset (new : Tree) : root.set call.path new = around new := by
    rw [hroot.tree_eq]
    exact hplace.spot.set call.tree new
  refine ⟨o, hadd, hfaithful, ?_, fun hnone => ?_, fun list hlist => ?_⟩
  · obtain ⟨before, after, htokens⟩ := hplace.tokens
    rw [htree, hset, hroot.tree_eq, htokens, htokens]
    exact halters.keeps.around before after
  · rw [htree, halters.relisted.eq_of_none hnone, hset, ← hroot.tree_eq]
  · rw [htree]
    exact set_relisted hcall hlist halters.relisted

/-! ## Where nothing is written anew -/

theorem not_loses {p : Tree → Bool} {call : Site}
    (h : ∀ array, argumentArray? call dependenciesLabel = some array → p array.tree = false) :
    ¬Loses p (fields call.tree) := by
  rintro ⟨array, harray, hp, _⟩
  rw [← argumentArray?_map] at harray
  obtain ⟨site, hsite, rfl⟩ := Option.map_eq_some_iff.1 harray
  rw [h site hsite] at hp
  cases hp

theorem not_losesBlanks {d : Dependency} {root : Tree} {call : Site} (h : Faithful root)
    (hcall : packageCall? root = some call)
    (hpackage : ∀ array, argumentArray? call dependenciesLabel = some array →
      isEmptyInline array.tree = false)
    (htarget : wiredName? d (fields call.tree) = none ∨ ∀ target array,
      firstTarget? root = some target → argumentArray? target dependenciesLabel = some array →
      isPlainInline array.tree = false) :
    ¬LosesBlanks d call.tree := by
  rintro (hloses | ⟨hwired, target, hsome, hloses⟩)
  · exact not_loses hpackage hloses
  · rcases htarget with hnone | htarget
    · rw [hnone] at hwired
      cases hwired
    · obtain ⟨_, hroot, _⟩ := packageCall_place h hcall
      have hmap := @targetSite?_map 254 _ call hroot.holds
      obtain ⟨site, hsite, rfl⟩ := Option.map_eq_some_iff.1 (hmap.trans hsome)
      have hfirst : firstTarget? root = some site := by
        rw [firstTarget?_eq, hcall]
        exact hsite
      exact not_loses (fun array => htarget site array hfirst) hloses

/-! ## Texts -/

theorem toList_print (t : Tree) : t.print.toList = textOf t.tokens := String.toList_ofList

theorem tokens_print {t : Tree} (h : Faithful t) : tokens t.print.toList = t.tokens :=
  (RoundTrip.tokens_of_parseText h).symm

/-- What an addition makes of the text of a manifest. Outside of the argument list of the call of
`Package` it stays as it is. The comments stay, and so do the significant tokens. If the array of
the package is not an empty one without a line break or a comment, and nothing goes into the first
target or its array has a line break or a comment, text is inserted only. -/
theorem addText_keeps {source : String} {root : Tree} (indent : Option IndentStyle)
    (d : Dependency) (h : parse source = .ok root) :
    ∃ o, addText indent source d = .ok o ∧
      comments (tokens o.text.toList) = comments (tokens source.toList) ∧
      (significant (tokens source.toList)).Sublist (significant (tokens o.text.toList)) ∧
      (packageCall? root = none → o.text = source) ∧
      ∀ call, packageCall? root = some call →
        (call.argumentList? = none → o.text = source) ∧
        (∀ list, call.argumentList? = some list → ∃ new after,
          source.toList = textOf (root.tokensBefore list.path) ++ list.tree.text ++ after ∧
          o.text.toList = textOf (root.tokensBefore list.path) ++ new ++ after) ∧
        ((∀ array, argumentArray? call dependenciesLabel = some array →
            isEmptyInline array.tree = false) →
          (wiredName? d (fields call.tree) = none ∨ ∀ target array,
            firstTarget? root = some target → argumentArray? target dependenciesLabel = some array →
            isPlainInline array.tree = false) →
          (tokens source.toList).Sublist (tokens o.text.toList) ∧
            source.toList.Sublist o.text.toList) := by
  have hroot := faithful_of_parse h
  obtain rfl : root.print = source := RoundTrip.print_of_tokens (RoundTrip.tokens_of_parseText h)
  rw [tokens_print hroot]
  cases hfound : packageCall? root with
  | none =>
    refine ⟨_, addText_print hroot (add_of_noRoot indent d hfound), ?_⟩
    rw [show (asText (Outcome.note { tree := root } .noRootPackage)).text = root.print from rfl,
      tokens_print hroot]
    exact ⟨rfl, .refl _, fun _ => rfl, nofun⟩
  | some call =>
    obtain ⟨o, hadd, hfaithful, hkeeps, hsame, hlists⟩ := add_keeps indent d hroot hfound
    refine ⟨asText o, addText_print hroot hadd, ?_⟩
    rw [show (asText o).text = o.tree.print from rfl, tokens_print hfaithful]
    refine ⟨hkeeps.comments, hkeeps.significant, nofun, ?_⟩
    rintro _ ⟨⟩
    refine ⟨fun hnone => by rw [hsame hnone], fun list hlist => ?_, fun hpackage htarget => ?_⟩
    · obtain ⟨list', hset⟩ := hlists list hlist
      obtain ⟨after, hold, hnew⟩ := Tree.tokens_set (get?_argumentList hfound hlist)
      refine ⟨list'.text, textOf after, ?_, ?_⟩
      · rw [toList_print, hold, textOf_append, textOf_append, Tree.text]
      · rw [toList_print, hset, hnew, textOf_append, textOf_append, Tree.text]
    · have hwhole := hkeeps.whole (not_losesBlanks hroot hfound hpackage htarget)
      rw [toList_print, toList_print]
      exact ⟨hwhole, textOf_sublist hwhole⟩

/-- A manifest whose package has an array with a line break and whose first target has one with a
comment. -/
theorem addText_keeps_lines_and_comment :
    ∃ source o, source = "let p = Package(name: \"x\", dependencies: [\n], // d\n" ++
        "targets: [.t(dependencies: [ /* c */ c ])])" ∧
      addText none source ⟨"a", "https://h/a", .version "1", ["A"]⟩ = .ok o ∧
      comments (tokens o.text.toList) = comments (tokens source.toList) ∧
      source.toList.Sublist o.text.toList := by
  have hok : (parse ("let p = Package(name: \"x\", dependencies: [\n], // d\n" ++
      "targets: [.t(dependencies: [ /* c */ c ])])")).isOk = true := by
    decide +kernel
  have hshape : ((parse ("let p = Package(name: \"x\", dependencies: [\n], // d\n" ++
      "targets: [.t(dependencies: [ /* c */ c ])])")).toOption.bind fun root =>
        (packageCall? root).map fun call =>
          ((argumentArray? call dependenciesLabel).all fun array => !isEmptyInline array.tree) &&
            (firstTarget? root).all fun target =>
              (argumentArray? target dependenciesLabel).all fun array =>
                !isPlainInline array.tree) = some true := by
    decide +kernel
  obtain ⟨root, hroot⟩ := RoundTrip.exists_of_isOk hok
  rw [hroot] at hshape
  obtain ⟨call, hcall, hshape⟩ := Option.map_eq_some_iff.1 hshape
  obtain ⟨hpackage, htarget⟩ := Bool.and_eq_true_iff.1 hshape
  obtain ⟨o, hadd, hcomments, _, _, hlists⟩ := addText_keeps none _ hroot
  obtain ⟨_, _, hwhole⟩ := hlists call hcall
  refine ⟨_, o, rfl, hadd, hcomments, (hwhole ?_ (.inr ?_)).2⟩
  · intro array harray
    simpa [harray] using hpackage
  · intro target array hfirst harray
    simpa [hfirst, harray] using htarget

end PackageManifest.Proofs.Addition
