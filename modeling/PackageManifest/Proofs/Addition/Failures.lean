import PackageManifest.Proofs.Addition.Runs

/-!
# Why an addition fails

Main statement: `addText_fails_iff`. A manifest that does not parse is the only reason: on a tree
that additions have led to from a parsed one, every search for what was edited and every generated
snippet succeeds.
-/

namespace PackageManifest.Proofs.Addition

open Source Snippets PackageManifest.Addition

/-- The trees that additions lead to, whatever is added and however it is indented. -/
inductive Reached (root : Tree) : Tree → Prop
  | start : Reached root root
  | next {t : Tree} {indent : Option IndentStyle} {d : Dependency} {o : Outcome} :
      Reached root t → add indent t d = .ok o → Reached root o.tree

/-- One addition keeps a tree faithful, and so does any number of them. -/
theorem Reached.faithful {root t : Tree} (h : Reached root t) (hroot : Faithful root) :
    Faithful t := by
  induction h with
  | start => exact hroot
  | @next t indent d o _ hadd ih =>
    obtain ⟨o', hadd', hfaithful⟩ := add_faithful indent d ih
    obtain rfl : o' = o := Except.ok.inj (hadd'.symm.trans hadd)
    exact hfaithful

theorem addText_of_parse {source : String} {root : Tree} (indent : Option IndentStyle)
    (d : Dependency) (h : parse source = .ok root) : ∃ o, addText indent source d = .ok o := by
  obtain ⟨o, hadd, _⟩ := add_faithful indent d (faithful_of_parse h)
  exact ⟨asText o, by rw [addText, h]; simp only [hadd, asText]⟩

theorem addText_of_parse_error {source : String} {e : ParseError} (indent : Option IndentStyle)
    (d : Dependency) (h : parse source = .error e) :
    addText indent source d = .error (.unparsable e) := by
  rw [addText, h]

/-- An addition to a text fails exactly if the text does not parse, with the parser's error. No
generated snippet is invalid, and no tree that additions reach loses track of anything. -/
theorem addText_fails_iff :
    (∀ indent text d f, addText indent text d = .error f ↔
      ∃ e, parse text = .error e ∧ f = .unparsable e) ∧
    (∀ source root t, parse source = .ok root → Reached root t →
      ∀ indent d, ∃ o, add indent t d = .ok o) ∧
    (∀ d, ∃ t, Snippet.packageReference d = .ok t) ∧
    (∀ product package, ∃ t, Snippet.productReference product package = .ok t) ∧
    ∃ t, Snippet.emptyArray = .ok t := by
  refine ⟨fun indent text d f => ⟨fun h => ?_, ?_⟩,
    fun source root t hparse hreached indent d => ?_, fun d => ⟨_, packageReference_eq d⟩,
    fun product package => ⟨_, productReference_eq product package⟩, _, emptyArray_eq⟩
  · cases hparse : parse text with
    | error e =>
      rw [addText_of_parse_error indent d hparse] at h
      exact ⟨e, rfl, (Except.error.inj h).symm⟩
    | ok root =>
      obtain ⟨o, ho⟩ := addText_of_parse indent d hparse
      cases h.symm.trans ho
  · rintro ⟨e, hparse, rfl⟩
    exact addText_of_parse_error indent d hparse
  · obtain ⟨o, hadd, _⟩ := add_faithful indent d (hreached.faithful (faithful_of_parse hparse))
    exact ⟨o, hadd⟩

/-- A text with an open delimiter, and what a first addition has left of one that parses. -/
theorem addText_fails_iff_open_and_added :
    (∃ e, parse "let p = (" = .error e ∧
      addText none "let p = (" ⟨"a", "https://h/a", .version "1", []⟩ = .error (.unparsable e)) ∧
    ∃ root o, parse "let p = Package(name: \"x\")" = .ok root ∧
      add none root ⟨"a", "https://h/a", .version "1", ["A"]⟩ = .ok o ∧
      ∃ o', add (some .tabs) o.tree ⟨"\"", "https://h/b", .branch "b", []⟩ = .ok o' := by
  have hopen : (parse "let p = (").isOk = false := by decide +kernel
  have hok : (parse "let p = Package(name: \"x\")").isOk = true := by decide +kernel
  obtain ⟨root, hroot⟩ := RoundTrip.exists_of_isOk hok
  obtain ⟨o, ho⟩ := addText_fails_iff.2.1 _ root root hroot .start none
    ⟨"a", "https://h/a", .version "1", ["A"]⟩
  refine ⟨?_, root, o, hroot, ho, ?_⟩
  · cases hparse : parse "let p = (" with
    | ok tree =>
      rw [hparse] at hopen
      cases hopen
    | error e => exact ⟨e, rfl, (addText_fails_iff.1 _ _ _ _).2 ⟨e, hparse, rfl⟩⟩
  · exact addText_fails_iff.2.1 _ root o.tree hroot (.next .start ho) _ _

end PackageManifest.Proofs.Addition
