import PackageManifest.Proofs.Addition.Meaning
import PackageManifest.Proofs.Addition.Runs

/-!
# The order of additions

Main statement: `addText_either_order`. Two dependencies from different repositories may be added in
either order: the arrays of the package and of its first target hold the same expressions in the
end, and nothing else differs. One addition appends to the two arrays and leaves the remainder of a
manifest as it is (`add_step`), so two additions differ in the order of what they append.
-/

namespace PackageManifest.Proofs.Addition

open Source Grammar Lexing Edits Snippets PackageManifest.Addition

/-! ## Dependencies as they are put together -/

/-- The dependencies that can be put together: products are only added by `withProducts`, so none is
there twice. One that is there twice would be put into a target twice, unless it is used already. -/
inductive Assembled : Dependency → Prop
  | start (identifier url : String) (requirement : Requirement) :
      Assembled ⟨identifier, url, requirement, []⟩
  | more {d : Dependency} (products : List String) :
      Assembled d → Assembled (d.withProducts products)

theorem Assembled.nodup {d : Dependency} (h : Assembled d) : d.products.Nodup := by
  induction h with
  | start identifier url requirement => exact List.nodup_nil
  | @more d products _ ih =>
    unfold Dependency.withProducts
    simp only
    generalize d.products = seen at ih
    induction products generalizing seen with
    | nil => exact ih
    | cons product products ihp =>
      rw [List.foldl_cons]
      apply ihp
      by_cases hseen : seen.contains product = true
      · rwa [if_pos hseen]
      · rw [if_neg hseen, List.nodup_append]
        refine ⟨ih, List.pairwise_singleton _ product, fun a ha b hb hab => hseen ?_⟩
        rw [List.mem_singleton.1 hb] at hab
        rw [List.contains_iff_mem, ← hab]
        exact ha

/-! ## Fields without the dependencies -/

section Fields

variable {label other : List Char} {fs : List Field}

def dropField (label : List Char) (fs : List Field) : List Field :=
  fs.eraseP fun f => f.1 == some label

theorem dropField_cons_of_eq {found : Option (List Char)} (h : (found == some label) = true)
    (value : Option Tree) (fs : List Field) : dropField label ((found, value) :: fs) = fs :=
  List.eraseP_cons_of_pos (p := fun f : Field => f.1 == some label) h

theorem dropField_cons_of_ne {found : Option (List Char)} (h : (found == some label) = false)
    (value : Option Tree) (fs : List Field) :
    dropField label ((found, value) :: fs) = (found, value) :: dropField label fs :=
  List.eraseP_cons_of_neg (p := fun f : Field => f.1 == some label) (by simp [h])

theorem dropField_setField (value : Tree) :
    dropField label (setField label value fs) = dropField label fs := by
  induction fs with
  | nil => rfl
  | cons f fs ih =>
    obtain ⟨found, held⟩ := f
    rw [setField]
    cases hf : found == some label with
    | true => rw [if_pos rfl, dropField_cons_of_eq hf, dropField_cons_of_eq hf]
    | false => rw [if_neg (by decide), dropField_cons_of_ne hf, dropField_cons_of_ne hf, ih]

theorem dropField_setField_of_ne (value : Tree) (hne : label ≠ other) :
    dropField label (setField other value fs) = setField other value (dropField label fs) := by
  induction fs with
  | nil => rfl
  | cons f fs ih =>
    obtain ⟨found, held⟩ := f
    cases hf : found == some label with
    | true =>
      have hother : (found == some other) = false := by
        rw [beq_iff_eq.1 hf]
        simpa using hne
      rw [setField, hother, if_neg (by decide), dropField_cons_of_eq hf, dropField_cons_of_eq hf]
    | false =>
      rw [dropField_cons_of_ne hf, setField, setField]
      cases hother : found == some other with
      | true => rw [if_pos rfl, if_pos rfl, dropField_cons_of_ne hf]
      | false => rw [if_neg (by decide), if_neg (by decide), dropField_cons_of_ne hf, ih]

theorem dropField_insertField (value : Option Tree) (h : lookup? label fs = none) :
    dropField label (insertField other (some label, value) fs) = fs := by
  have hnew : ((some label : Option (List Char)) == some label) = true := beq_self_eq_true _
  induction fs with
  | nil => rfl
  | cons f fs ih =>
    obtain ⟨found, held⟩ := f
    rw [lookup?, List.find?_cons] at h
    split at h
    · cases h
    · rename_i hf
      rw [insertField]
      split
      · rw [dropField_cons_of_ne hf, dropField_cons_of_eq hnew]
      · rw [dropField_cons_of_ne hf, ih h]

theorem lookup?_dropField (hne : label ≠ other) :
    lookup? other (dropField label fs) = lookup? other fs := by
  induction fs with
  | nil => rfl
  | cons f fs ih =>
    obtain ⟨found, held⟩ := f
    cases hf : found == some label with
    | true =>
      have hother : (found == some other) = false := by
        rw [beq_iff_eq.1 hf]
        simpa using hne
      rw [dropField_cons_of_eq hf]
      simp only [lookup?, List.find?_cons, hother]
    | false =>
      rw [dropField_cons_of_ne hf]
      simp only [lookup?, List.find?_cons] at ih ⊢
      rw [ih]

end Fields

def otherFields (fs : List Field) : List Field :=
  if (arrayOf? dependenciesLabel.toList fs).isSome then dropField dependenciesLabel.toList fs
  else fs

/-! ## More expressions in an array -/

def entries? (fs : List Field) : Option (List Tree) :=
  (arrayOf? dependenciesLabel.toList fs).map Tree.elementExprs

theorem listed_eq_getD (fs : List Field) : listed fs = (entries? fs).getD [] := rfl

def extended (possible : Bool) (old : Option (List Tree)) (extra : List Tree) :
    Option (List Tree) :=
  if possible && !extra.isEmpty then some (old.getD [] ++ extra) else old

theorem extended_nil (possible : Bool) (old : Option (List Tree)) :
    extended possible old [] = old := by
  cases possible <;> rfl

theorem extended_true {extra : List Tree} (h : extra ≠ []) (old : Option (List Tree)) :
    extended true old extra = some (old.getD [] ++ extra) := by
  rw [extended, List.isEmpty_eq_false_iff.2 h]
  rfl

theorem getD_extended_true (old : Option (List Tree)) (extra : List Tree) :
    (extended true old extra).getD [] = old.getD [] ++ extra := by
  by_cases h : extra = []
  · rw [h, extended_nil, List.append_nil]
  · rw [extended_true h, Option.getD_some]

theorem extended_extended (possible : Bool) (old : Option (List Tree)) (first second : List Tree) :
    extended possible (extended possible old first) second =
      extended possible old (first ++ second) := by
  cases possible with
  | false => rfl
  | true =>
    by_cases h : second = []
    · rw [h, extended_nil, List.append_nil]
    · rw [extended_true h, getD_extended_true, List.append_assoc,
        extended_true (List.append_ne_nil_of_right_ne_nil _ h)]

/-- Whatever the order of the expressions, the array holds the same. -/
theorem extended_perm (possible : Bool) (old : Option (List Tree)) {first second : List Tree}
    (h : first.Perm second) :
    Option.Rel List.Perm (extended possible old first) (extended possible old second) := by
  have hrefl (entries : Option (List Tree)) : Option.Rel List.Perm entries entries := by
    cases entries with
    | none => exact .none
    | some list => exact .some (.refl list)
  cases possible with
  | false => exact hrefl old
  | true =>
    by_cases hfirst : first = []
    · subst hfirst
      rw [h.symm.eq_nil]
      exact hrefl _
    · have hsecond : second ≠ [] := fun hnil => hfirst (hnil ▸ h).eq_nil
      rw [extended_true hfirst, extended_true hsecond]
      exact .some (h.append_left _)

/-- The call `new` is `call` with `extra` at the end of the array for its dependencies, if it can
have one. -/
structure Appended (candidates : List String) (extra : List Tree) (call new : Tree) : Prop where
  entries : entries? (fields new) =
    extended (provided? candidates (fields call)).isSome (entries? (fields call)) extra
  possible : (provided? candidates (fields new)).isSome =
    (provided? candidates (fields call)).isSome
  besides : besides new = besides call
  others : otherFields (fields new) = otherFields (fields call)

theorem appended_self {candidates : List String} {extra : List Tree} {call : Tree}
    (h : ((provided? candidates (fields call)).isSome && !extra.isEmpty) = false) :
    Appended candidates extra call call where
  entries := by
    rw [extended, h]
    rfl
  possible := rfl
  besides := rfl
  others := rfl

theorem appended_of_extends {candidates : List String} {extra : List Tree} {call new : Tree}
    (h : Extends candidates extra call new) (hextra : extra ≠ []) :
    Appended candidates extra call new := by
  have hlisted := h.listed
  obtain ⟨hbesides, base, hbase, hgrows⟩ := h
  obtain ⟨_, array, _, harray, _⟩ := hgrows.arrayOf?
  refine ⟨?_, ?_, hbesides, ?_⟩
  · rw [hbase, Option.isSome_some, extended_true hextra, ← listed_eq_getD, ← hlisted,
      listed_eq harray, entries?, harray, Option.map_some]
  · rw [isSome_provided?, lookup?_of_arrayOf? harray, harray, hbase]
    rfl
  · obtain ⟨_, array', _, _, _, hnew⟩ := hgrows
    rw [otherFields, harray, Option.isSome_some, if_pos rfl, hnew, dropField_setField, otherFields]
    unfold provided? at hbase
    split at hbase
    · split at hbase
      · rename_i hsome
        rw [if_pos hsome, Option.some.inj hbase]
      · cases hbase
    · rename_i hnone
      obtain ⟨c, _, rfl⟩ := Option.map_eq_some_iff.1 hbase
      rw [dropField_insertField _ hnone, arrayOf?, hnone]
      rfl

/-! ## What one addition appends -/

def declarations (d : Dependency) (fs : List Field) : List Tree :=
  if ((listed fs).findSome? (declaredName? d.url)).isSome then [] else [packageTree d]

def missing (package : String) (products : List String) (exprs : List Tree) : List String :=
  products.filter fun product => !exprs.any (usesProduct product package)

def references (package : String) (products : List String) (exprs : List Tree) : List Tree :=
  (missing package products exprs).map fun product => productTree product package

theorem Declares.appended {d : Dependency} {call : Tree} {name : Option String}
    {edited : Option Tree} (h : Declares d call name edited) :
    Appended packageAnchors (declarations d (fields call)) call (edited.getD call) := by
  obtain ⟨_, hundeclared⟩ := h.determined
  rw [undeclared] at hundeclared
  cases h with
  | added hnone hreference hextends =>
    obtain rfl := Except.ok.inj ((packageReference_eq d).symm.trans hreference)
    rw [declarations, findSome?_declaredName?_eq_none.2 hnone]
    exact appended_of_extends hextends (List.cons_ne_nil _ _)
  | _ =>
    refine appended_self ?_
    rw [declarations]
    cases hfound : (listed (fields call)).findSome? (declaredName? d.url) with
    | some name => exact Bool.and_false _
    | none =>
      rw [hfound] at hundeclared
      exact hundeclared.symm

theorem Uses.appended {package : String} {products : List String} {target : Tree}
    {edited : Option Tree} (h : Uses package products target edited) :
    Appended targetAnchors (references package products (listed (fields target))) target
      (edited.getD target) := by
  have hwanting := h.determined
  cases h with
  | wired hsome hreferences hextends _ =>
    rw [mapM_productReference] at hreferences
    obtain rfl := Except.ok.inj hreferences
    exact appended_of_extends hextends fun hnil => hsome (List.map_eq_nil_iff.1 hnil)
  | _ =>
    refine appended_self ?_
    rw [references, List.isEmpty_map]
    exact hwanting.symm

/-- The first target before and after an addition: none, or one to whose array something was
appended. -/
def TargetAppended (extra : List Tree → List Tree) (fs new : List Field) : Prop :=
  (targetOf? fs = none ∧ targetOf? new = none) ∨
    ∃ target target', targetOf? fs = some target ∧ targetOf? new = some target' ∧
      Appended targetAnchors (extra (listed (fields target))) target target'

theorem targetAppended_self {fs new : List Field} (h : targetOf? new = targetOf? fs) :
    TargetAppended (fun _ => []) fs new := by
  cases htarget : targetOf? fs with
  | none => exact .inl ⟨htarget, h.trans htarget⟩
  | some target =>
    exact .inr ⟨target, target, htarget, h.trans htarget, appended_self (Bool.and_false _)⟩

theorem Wires.appended {package : String} {products : List String} {call : Tree}
    {edited : Option Tree} (h : Wires package products call edited) :
    TargetAppended (references package products) (fields call) (fields (edited.getD call)) := by
  cases h with
  | noTarget hnone => exact .inl ⟨hnone, hnone⟩
  | kept htarget huses => exact .inr ⟨_, _, htarget, htarget, huses.appended⟩
  | wired htarget harray _ huses hnode hexprs _ hfields =>
    refine .inr ⟨_, _, htarget, ?_, huses.appended⟩
    rw [Option.getD_some, hfields, targetOf?,
      arrayOf?_setField (lookup?_of_arrayOf? harray) hnode, Option.bind_some, hexprs,
      List.head?_cons, Option.filter_some, if_pos huses.isNode]
    rfl

/-! ## The remainder -/

def hideTargets (fs : List Field) : List Field :=
  if (targetOf? fs).isSome then setField targetsLabel.toList emptyArrayTree fs else fs

def laterTargets (fs : List Field) : List Tree :=
  ((arrayOf? targetsLabel.toList fs).map fun targets => targets.elementExprs.tail).getD []

/-- What the call of `Package` says apart from the dependencies of the package and of the first
target: its parts besides its arguments, its other arguments, the parts and other arguments of the
first target, and the other targets. -/
structure CallRemainder where
  parts : List Tree
  arguments : List Field
  target : Option (List Tree × List Field)
  targets : List Tree

def callRemainder (call : Tree) : CallRemainder where
  parts := besides call
  arguments := hideTargets (otherFields (fields call))
  target := (targetOf? (fields call)).map fun target =>
    (besides target, otherFields (fields target))
  targets := laterTargets (fields call)

/-- What a manifest says apart from the dependencies of the package and of the first target. -/
structure Remainder where
  /-- The manifest with nothing in the place of the call of `Package`. -/
  outside : Tree
  call : Option CallRemainder

def remainder (t : Tree) : Remainder :=
  match packageCall? t with
  | none => ⟨t, none⟩
  | some call => ⟨t.set call.path (.node .callExpr []), some (callRemainder call.tree)⟩

theorem otherFields_setField_targets (value : Tree) (fs : List Field) :
    otherFields (setField targetsLabel.toList value fs) =
      setField targetsLabel.toList value (otherFields fs) := by
  have hne : dependenciesLabel.toList ≠ targetsLabel.toList := by decide
  rw [otherFields, otherFields, arrayOf?, arrayOf?, lookup?_setField_of_ne _ hne]
  split
  · exact dropField_setField_of_ne value hne
  · rfl

theorem targetOf?_otherFields (fs : List Field) : targetOf? (otherFields fs) = targetOf? fs := by
  rw [otherFields]
  split
  · rw [targetOf?, targetOf?, arrayOf?, arrayOf?, lookup?_dropField (by decide)]
  · rfl

theorem Declares.callRemainder_eq {d : Dependency} {call : Tree} {name : Option String}
    {edited : Option Tree} (h : Declares d call name edited) :
    callRemainder (edited.getD call) = callRemainder call := by
  have happended := h.appended
  have htargets : Edits.lookup? targetsLabel.toList (fields (edited.getD call)) =
      Edits.lookup? targetsLabel.toList (fields call) := h.lookup? (by decide)
  unfold callRemainder
  rw [happended.besides, happended.others, targetOf?, targetOf?, laterTargets, laterTargets,
    arrayOf?, arrayOf?, htargets]

theorem Wires.callRemainder_eq {package : String} {products : List String} {call : Tree}
    {edited : Option Tree} (h : Wires package products call edited) :
    callRemainder (edited.getD call) = callRemainder call := by
  have happended := h.appended
  cases h with
  | noTarget _ => rfl
  | kept _ _ => rfl
  | @wired targets targets' _ target' new rest htarget harray hexprs huses hnode hexprs' hbesides
      hfields =>
    have harray' : arrayOf? targetsLabel.toList (fields new) = some targets' := by
      rw [hfields]
      exact arrayOf?_setField (lookup?_of_arrayOf? harray) hnode
    rcases happended with ⟨hnone, _⟩ | ⟨old, next, hold, hnext, hstep⟩
    · cases hnone.symm.trans htarget
    · rw [Option.getD_some] at hnext ⊢
      have harguments : hideTargets (otherFields (fields new)) =
          hideTargets (otherFields (fields call)) := by
        rw [hideTargets, hideTargets, targetOf?_otherFields, targetOf?_otherFields, hnext, hold,
          Option.isSome_some, if_pos rfl, Option.isSome_some, if_pos rfl, hfields,
          otherFields_setField_targets, setField_setField]
      have htargets : laterTargets (fields new) = laterTargets (fields call) := by
        rw [laterTargets, laterTargets, harray, harray', Option.map_some, Option.map_some, hexprs,
          hexprs', List.tail_cons, List.tail_cons]
      unfold callRemainder
      rw [hbesides, harguments, hnext, hold, htargets, Option.map_some, Option.map_some,
        hstep.besides, hstep.others]

/-! ## One addition -/

def packageFields (t : Tree) : List Field :=
  ((packageCall? t).map fun call => fields call.tree).getD []

/-- What adding a dependency appends to the arrays, as the fields of the call of `Package` show. -/
structure Step (d : Dependency) (fs new : List Field) : Prop where
  entries : entries? new =
    extended (provided? packageAnchors fs).isSome (entries? fs) (declarations d fs)
  possible : (provided? packageAnchors new).isSome = (provided? packageAnchors fs).isSome
  named : ∀ d', (nameIn? d' new).isSome = (nameIn? d' fs).isSome
  target : TargetAppended
    (fun exprs => (nameIn? d fs).elim [] fun name => references name d.products exprs) fs new

theorem isSome_nameIn? (d : Dependency) (fs : List Field) :
    (nameIn? d fs).isSome = ((lookup? dependenciesLabel.toList fs).isSome ||
      (anchorLabel? packageAnchors fs).isSome) := by
  unfold nameIn?
  split
  · rename_i hplace
    exact hplace.symm
  · rename_i hplace
    exact (Bool.eq_false_iff.2 hplace).symm

theorem AddsTo.step {d : Dependency} {call : Tree} {o : Outcome} {name : Option String}
    {declared wired : Option Tree} (h : AddsTo d call o name declared wired) :
    Step d (fields call) (fields (wired.getD (declared.getD call))) := by
  have happended := h.declares.appended
  obtain ⟨hname, _⟩ := h.declares.determined
  have hsettled := h.declares.settled.1
  have hnamed (d' : Dependency) : (nameIn? d' (fields (declared.getD call))).isSome =
      (nameIn? d' (fields call)).isSome := by
    rw [isSome_nameIn? d', isSome_nameIn? d', ← isSome_nameIn? d, ← isSome_nameIn? d, hsettled,
      hname]
  cases hcase : name with
  | none =>
    rw [h.unnamed hcase, Option.getD_none]
    refine ⟨happended.entries, happended.possible, hnamed, ?_⟩
    rw [← hname, hcase]
    exact targetAppended_self h.targetOf?_eq
  | some name =>
    have hwires := h.wires name hcase
    have hlabels : ∀ label ∈ dependenciesLabel :: packageAnchors,
        label.toList ≠ targetsLabel.toList := by decide
    have hlookup : ∀ label ∈ dependenciesLabel :: packageAnchors,
        lookup? label.toList (fields (wired.getD (declared.getD call))) =
          lookup? label.toList (fields (declared.getD call)) :=
      fun label hlabel => hwires.lookup? (hlabels label hlabel)
    have harray : arrayOf? dependenciesLabel.toList (fields (wired.getD (declared.getD call))) =
        arrayOf? dependenciesLabel.toList (fields (declared.getD call)) := by
      rw [arrayOf?, arrayOf?, hlookup _ (List.mem_cons_self ..)]
    refine ⟨?_, ?_, fun d' => ?_, ?_⟩
    · rw [entries?, harray]
      exact happended.entries
    · rw [isSome_provided?, harray, hlookup _ (List.mem_cons_self ..), ← happended.possible,
        isSome_provided?]
      simp only [anchorLabel?, packageAnchors, List.find?, hlookup "name" (by decide),
        hlookup "platforms" (by decide)]
    · rw [(nameIn?_congr d' hlookup).1, hnamed]
    · rw [← hname, hcase]
      have htargets := hwires.appended
      unfold TargetAppended at htargets ⊢
      rwa [h.targetOf?_eq] at htargets

/-- One addition appends to the two arrays and leaves the remainder of the manifest. -/
theorem add_step (indent : Option IndentStyle) (d : Dependency) {root : Tree} (h : Faithful root) :
    ∃ o, add indent root d = .ok o ∧ Faithful o.tree ∧ remainder o.tree = remainder root ∧
      Step d (packageFields root) (packageFields o.tree) := by
  cases hfound : packageCall? root with
  | none =>
    have hfields : packageFields root = [] := by
      rw [packageFields, hfound]
      rfl
    refine ⟨_, add_of_noRoot indent d hfound, h, rfl, ?_⟩
    rw [show packageFields (Outcome.note { tree := root } .noRootPackage).tree = [] from hfields,
      hfields]
    exact ⟨rfl, rfl, fun _ => rfl, .inl ⟨rfl, rfl⟩⟩
  | some call =>
    obtain ⟨o, name, declared, wired, hadd, hrun, htree, hcall, hfaithful⟩ :=
      add_run indent d h hfound
    refine ⟨o, hadd, hfaithful, ?_, ?_⟩
    · have hkept : callRemainder (wired.getD (declared.getD call.tree)) =
          callRemainder call.tree := by
        cases hname : name with
        | none =>
          rw [hrun.unnamed hname]
          exact hrun.declares.callRemainder_eq
        | some name =>
          rw [(hrun.wires name hname).callRemainder_eq, hrun.declares.callRemainder_eq]
      have houtside (new : Tree) : o.tree.set call.path new = root.set call.path new := by
        obtain ⟨around, hroot, hplace⟩ := packageCall_place h hfound
        rw [htree, hroot.tree_eq, hplace.spot.set, hplace.spot.set, hplace.spot.set]
      rw [remainder, remainder, hcall, hfound]
      simp only [hkept, houtside]
    · rw [packageFields, packageFields, hcall, hfound]
      exact hrun.step

/-! ## Two additions -/

theorem declaredName?_packageTree_of_ne {d d' : Dependency}
    (hne : Repository.normalForm d.url.toList ≠ Repository.normalForm d'.url.toList) :
    declaredName? d'.url (packageTree d) = none := by
  rw [declaredName?_eq_none]
  rintro name ⟨_, location, hlocation, hnormal, _⟩
  have hurl : (packageTree d).stringArgument? "url".toList = some d.url.toList :=
    stringArgument?_memberCall _
  obtain rfl : d.url.toList = location := Option.some.inj (hurl.symm.trans hlocation)
  exact hne hnormal

theorem usesProduct_productTree_iff {product product' package package' : String} :
    usesProduct product package (productTree product' package') = true ↔
      product' = product ∧ package' = package := by
  have hcall : (productTree product' package').isMemberCall "product".toList = true :=
    isMemberCall_memberCall
  have hname : (productTree product' package').stringArgument? "name".toList =
      some product'.toList := stringArgument?_memberCall _
  have hpackage : (productTree product' package').stringArgument? "package".toList =
      some package'.toList := stringArgument?_memberCall _
  rw [usesProduct, hcall, hname, hpackage]
  simp [String.toList_inj]

section Two

variable {d d' : Dependency} {fs mid new : List Field}

/-- An addition does not declare another package. -/
theorem Step.findSome? (h : Step d fs mid)
    (hne : Repository.normalForm d.url.toList ≠ Repository.normalForm d'.url.toList) :
    (listed mid).findSome? (declaredName? d'.url) =
      (listed fs).findSome? (declaredName? d'.url) := by
  have hnone : (declarations d fs).findSome? (declaredName? d'.url) = none := by
    rw [declarations]
    split
    · rfl
    · rw [List.findSome?_cons, declaredName?_packageTree_of_ne hne]
      rfl
  rw [listed_eq_getD, listed_eq_getD, h.entries]
  cases (provided? packageAnchors fs).isSome with
  | false => rfl
  | true => rw [getD_extended_true, List.findSome?_append, hnone, Option.or_none]

theorem Step.nameIn?_eq (h : Step d fs mid)
    (hne : Repository.normalForm d.url.toList ≠ Repository.normalForm d'.url.toList) :
    nameIn? d' mid = nameIn? d' fs := by
  have hplace := h.named d'
  rw [isSome_nameIn?, isSome_nameIn?] at hplace
  rw [nameIn?, nameIn?, h.findSome? hne, hplace]

/-- Two additions append one declaration after the other. -/
theorem Step.entries_trans (h : Step d fs mid) (h' : Step d' mid new)
    (hne : Repository.normalForm d.url.toList ≠ Repository.normalForm d'.url.toList) :
    entries? new = extended (provided? packageAnchors fs).isSome (entries? fs)
      (declarations d fs ++ declarations d' fs) := by
  have hsame : declarations d' mid = declarations d' fs := by
    rw [declarations, declarations, h.findSome? hne]
  rw [h'.entries, h.entries, h.possible, hsame, extended_extended]

def bothReferences (first second : List Tree → List Tree) (exprs : List Tree) : List Tree :=
  first exprs ++ second (exprs ++ first exprs)

def targetEntries? (fs : List Field) : Option (List Tree) :=
  (targetOf? fs).bind fun target => entries? (fields target)

theorem TargetAppended.trans {first second : List Tree → List Tree}
    (h : TargetAppended first fs mid) (h' : TargetAppended second mid new) :
    targetEntries? new = (targetOf? fs).bind fun target =>
      extended (provided? targetAnchors (fields target)).isSome (entries? (fields target))
        (bothReferences first second (listed (fields target))) := by
  rcases h with ⟨hnone, hmid⟩ | ⟨target, target', htarget, hmid, hfirst⟩
  · rcases h' with ⟨_, hnew⟩ | ⟨_, _, hsome, _⟩
    · rw [targetEntries?, hnew, hnone]
      rfl
    · cases hmid.symm.trans hsome
  · rcases h' with ⟨hnone, _⟩ | ⟨_, target'', hsome, hnew, hsecond⟩
    · cases hmid.symm.trans hnone
    · obtain rfl := Option.some.inj (hmid.symm.trans hsome)
      rw [targetEntries?, hnew, htarget, Option.bind_some, Option.bind_some, hsecond.entries,
        hfirst.possible, hfirst.entries, listed_eq_getD (fields target'), hfirst.entries]
      cases (provided? targetAnchors (fields target)).isSome with
      | false => rfl
      | true =>
        rw [extended_extended, getD_extended_true, ← listed_eq_getD]
        rfl

end Two

/-! ## Either order -/

theorem missing_append (package package' : String) (products products' : List String)
    (exprs : List Tree) :
    missing package' products' (exprs ++ products.map fun product => productTree product package) =
      (missing package' products' exprs).filter fun product =>
        !(package == package' && products.contains product) := by
  rw [missing, missing, List.filter_filter]
  refine List.filter_congr fun product _ => ?_
  have hany : (products.map fun product => productTree product package).any
      (usesProduct product package') = (package == package' && products.contains product) := by
    rw [Bool.eq_iff_iff, List.any_map, List.any_eq_true, Bool.and_eq_true, beq_iff_eq,
      List.contains_iff_mem]
    simp only [Function.comp_apply, usesProduct_productTree_iff]
    constructor
    · rintro ⟨product', hmem, rfl, rfl⟩
      exact ⟨rfl, hmem⟩
    · rintro ⟨rfl, hmem⟩
      exact ⟨product, hmem, rfl, rfl⟩
  rw [List.any_append, hany, Bool.not_or, Bool.and_comm]

/-- Two lists of different products without those of the other that came first. -/
theorem append_filter_perm {first second : List String} (hfirst : first.Nodup)
    (hsecond : second.Nodup) :
    (first ++ second.filter fun product => !first.contains product).Perm
      (second ++ first.filter fun product => !second.contains product) := by
  have hnodup {xs ys : List String} (hxs : xs.Nodup) (hys : ys.Nodup) :
      (xs ++ ys.filter fun product => !xs.contains product).Nodup := by
    rw [List.nodup_append]
    refine ⟨hxs, hys.filter _, fun a ha b hb hab => ?_⟩
    rw [List.mem_filter] at hb
    subst hab
    simp [ha] at hb
  rw [List.perm_ext_iff_of_nodup (hnodup hfirst hsecond) (hnodup hsecond hfirst)]
  intro product
  by_cases hmem : product ∈ first <;> by_cases hmem' : product ∈ second <;> simp [hmem, hmem']

/-- The references of two packages come out the same, also where both go by one name. -/
theorem bothReferences_perm {package package' : String} {products products' : List String}
    (h : products.Nodup) (h' : products'.Nodup) (exprs : List Tree) :
    (bothReferences (references package products) (references package' products') exprs).Perm
      (bothReferences (references package' products') (references package products) exprs) := by
  unfold bothReferences references
  rw [missing_append, missing_append]
  by_cases hsame : package = package'
  · subst hsame
    simp only [beq_self_eq_true, Bool.true_and]
    rw [← List.map_append, ← List.map_append]
    exact (append_filter_perm (h.filter _) (h'.filter _)).map _
  · have hne : (package == package') = false := beq_eq_false_iff_ne.2 hsame
    have hne' : (package' == package) = false := beq_eq_false_iff_ne.2 (Ne.symm hsame)
    have hall (names : List String) : names.filter (fun _ => true) = names :=
      List.filter_eq_self.2 fun _ _ => rfl
    simp only [hne, hne', Bool.false_and, Bool.not_false, hall]
    exact List.perm_append_comm

section Either

variable {d d' : Dependency} {fs mid mid' new new' : List Field}

theorem Step.entries_perm (h : Step d fs mid) (hnext : Step d' mid new) (h' : Step d' fs mid')
    (hnext' : Step d mid' new')
    (hne : Repository.normalForm d.url.toList ≠ Repository.normalForm d'.url.toList) :
    Option.Rel List.Perm (entries? new) (entries? new') := by
  rw [h.entries_trans hnext hne, h'.entries_trans hnext' hne.symm]
  exact extended_perm _ _ List.perm_append_comm

theorem Step.targetEntries_perm (h : Step d fs mid) (hnext : Step d' mid new)
    (h' : Step d' fs mid') (hnext' : Step d mid' new')
    (hne : Repository.normalForm d.url.toList ≠ Repository.normalForm d'.url.toList)
    (hd : d.products.Nodup) (hd' : d'.products.Nodup) :
    Option.Rel List.Perm (targetEntries? new) (targetEntries? new') := by
  rw [h.target.trans hnext.target, h'.target.trans hnext'.target, h.nameIn?_eq hne,
    h'.nameIn?_eq hne.symm]
  cases targetOf? fs with
  | none => exact .none
  | some target =>
    rw [Option.bind_some, Option.bind_some]
    apply extended_perm
    -- Either both packages have a name here, or none has.
    have hnamed : (nameIn? d fs).isSome = (nameIn? d' fs).isSome := by
      rw [isSome_nameIn?, isSome_nameIn?]
    cases hname : nameIn? d fs with
    | none =>
      rw [hname, Option.isSome_none, eq_comm, Option.isSome_eq_false_iff,
        Option.isNone_iff_eq_none] at hnamed
      rw [hnamed]
      exact .refl _
    | some name =>
      rw [hname, Option.isSome_some, eq_comm, Option.isSome_iff_exists] at hnamed
      obtain ⟨name', hname'⟩ := hnamed
      rw [hname']
      exact bothReferences_perm hd hd' _

end Either

/-! ## Texts -/

def printed? (call : Option Site) : Option (List String) :=
  (call.bind fun c => argumentArray? c dependenciesLabel).map fun array =>
    array.tree.elementExprs.map Tree.print

theorem printed?_some (call : Site) :
    printed? (some call) = (entries? (fields call.tree)).map (List.map Tree.print) := by
  rw [printed?, entries?, ← argumentArray?_map, Option.bind_some, Option.map_map, Option.map_map]
  rfl

theorem printed?_packageCall? (t : Tree) :
    printed? (packageCall? t) = (entries? (packageFields t)).map (List.map Tree.print) := by
  rw [packageFields]
  cases packageCall? t with
  | none => rfl
  | some call => exact printed?_some call

theorem printed?_firstTarget? {t : Tree} (h : Faithful t) :
    printed? (firstTarget? t) = (targetEntries? (packageFields t)).map (List.map Tree.print) := by
  rw [firstTarget?_eq, packageFields, targetEntries?]
  cases hcall : packageCall? t with
  | none => rfl
  | some call =>
    obtain ⟨_, hfilled, _⟩ := packageCall_place h hcall
    have hmap : (targetSite? call).map Site.tree = targetOf? (fields call.tree) :=
      @targetSite?_map 254 _ call hfilled.holds
    rw [Option.map_some, Option.getD_some, ← hmap]
    change printed? (targetSite? call) = _
    cases targetSite? call with
    | none => rfl
    | some target => exact printed?_some target

theorem rel_map_print {entries entries' : Option (List Tree)}
    (h : Option.Rel List.Perm entries entries') :
    Option.Rel List.Perm (entries.map (List.map Tree.print))
      (entries'.map (List.map Tree.print)) := by
  cases h with
  | none => exact .none
  | some hperm => exact .some (hperm.map _)

/-- Two dependencies from different repositories can be added in either order. The array of the
package and that of its first target are there in both texts or in none, with the same expressions
in some order, and all else that the texts say is the same. -/
theorem addText_either_order {source : String} {root : Tree} {d d' : Dependency}
    (first second first' second' : Option IndentStyle) (h : parse source = .ok root)
    (hd : Assembled d) (hd' : Assembled d')
    (hne : Repository.normalForm d.url.toList ≠ Repository.normalForm d'.url.toList) :
    ∃ o both o' both' t t', addText first source d = .ok o ∧
      addText second o.text d' = .ok both ∧ addText first' source d' = .ok o' ∧
      addText second' o'.text d = .ok both' ∧ parse both.text = .ok t ∧
      parse both'.text = .ok t' ∧
      Option.Rel List.Perm (printed? (packageCall? t)) (printed? (packageCall? t')) ∧
      Option.Rel List.Perm (printed? (firstTarget? t)) (printed? (firstTarget? t')) ∧
      remainder t = remainder t' := by
  have hroot := faithful_of_parse h
  obtain rfl : root.print = source := RoundTrip.print_of_tokens (RoundTrip.tokens_of_parseText h)
  obtain ⟨o, ho, hofaithful, horest, hostep⟩ := add_step first d hroot
  obtain ⟨both, hboth, hfaithful, hrest, hstep⟩ := add_step second d' hofaithful
  obtain ⟨o', ho', hofaithful', horest', hostep'⟩ := add_step first' d' hroot
  obtain ⟨both', hboth', hfaithful', hrest', hstep'⟩ := add_step second' d hofaithful'
  refine ⟨asText o, asText both, asText o', asText both', both.tree, both'.tree,
    addText_print hroot ho, addText_print hofaithful hboth, addText_print hroot ho',
    addText_print hofaithful' hboth', hfaithful, hfaithful', ?_, ?_, ?_⟩
  · rw [printed?_packageCall?, printed?_packageCall?]
    exact rel_map_print (hostep.entries_perm hstep hostep' hstep' hne)
  · rw [printed?_firstTarget? hfaithful, printed?_firstTarget? hfaithful']
    exact rel_map_print (hostep.targetEntries_perm hstep hostep' hstep' hne hd.nodup hd'.nodup)
  · rw [hrest, horest, hrest', horest']

/-- Two packages that go by one name and share a product, in a manifest without any of the
arrays. -/
theorem addText_either_order_same_name :
    ∃ d d' : Dependency, d.products = ["A", "B"] ∧ d'.products = ["C", "B"] ∧
      d.identifier = d'.identifier ∧
      ∃ o both o' both' t t',
        addText none "let p = Package(name: \"x\", targets: [.t(name: \"t\")])" d = .ok o ∧
        addText none o.text d' = .ok both ∧
        addText (some .tabs) "let p = Package(name: \"x\", targets: [.t(name: \"t\")])" d' =
          .ok o' ∧
        addText none o'.text d = .ok both' ∧ parse both.text = .ok t ∧
        parse both'.text = .ok t' ∧
        Option.Rel List.Perm (printed? (packageCall? t)) (printed? (packageCall? t')) ∧
        Option.Rel List.Perm (printed? (firstTarget? t)) (printed? (firstTarget? t')) ∧
        remainder t = remainder t' := by
  have hok : (parse "let p = Package(name: \"x\", targets: [.t(name: \"t\")])").isOk = true := by
    decide +kernel
  obtain ⟨root, hroot⟩ := RoundTrip.exists_of_isOk hok
  have hne : Repository.normalForm "https://h/a".toList ≠
      Repository.normalForm "https://h/b".toList := by
    decide +kernel
  refine ⟨⟨"a", "https://h/a", .version "1", ["A", "B"]⟩,
    ⟨"a", "https://h/b", .branch "b", ["C", "B"]⟩, rfl, rfl, rfl, ?_⟩
  exact addText_either_order none none (some .tabs) none hroot
    (.more ["A", "B"] (.start "a" "https://h/a" (.version "1")))
    (.more ["C", "B"] (.start "a" "https://h/b" (.branch "b"))) hne

end PackageManifest.Proofs.Addition
