import PackageManifest.Proofs.Addition.Dependencies

/-!
# Declaring a dependency

What becomes of the call of `Package` when a dependency is declared in it: nothing, if it is
declared already or there is no array for it, and one more element of the array otherwise.
-/

namespace PackageManifest.Proofs.Addition

open Source Grammar Lexing Edits Snippets PackageManifest.Addition

def packageAnchors : List String := ["name", "platforms"]

/-- The expression declares the package that comes from `url`, under `name`: it is `.package(…)`
with that location, up to its normal form, and is called after it unless it says otherwise. -/
def DeclaresAs (url : String) (expr : Tree) (name : String) : Prop :=
  expr.isMemberCall "package".toList = true ∧
    ∃ location, expr.stringArgument? "url".toList = some location ∧
      Repository.normalForm location = Repository.normalForm url.toList ∧
      name = String.ofList
        ((expr.stringArgument? "name".toList).getD (Repository.nameOf location))

theorem declaredName?_eq_some {url name : String} {expr : Tree} :
    declaredName? url expr = some name ↔ DeclaresAs url expr name := by
  rw [declaredName?, DeclaresAs, Option.ite_none_right_eq_some]
  refine and_congr_right fun _ => ?_
  cases expr.stringArgument? "url".toList with
  | none => simp
  | some location => simp [eq_comm]

/-- What declaring a dependency does to a call: the name that its products go by, none if there is
no place for the declaration, and the new call, none if it stays as it is. -/
inductive Declares (d : Dependency) (call : Tree) : Option String → Option Tree → Prop
  /-- There are no dependencies and nothing behind which they could go. -/
  | noPlace :
      lookup? dependenciesLabel.toList (fields call) = none →
      anchorLabel? packageAnchors (fields call) = none → Declares d call none none
  /-- The dependencies are no array. -/
  | otherShape :
      (lookup? dependenciesLabel.toList (fields call)).isSome = true →
      arrayOf? dependenciesLabel.toList (fields call) = none →
      Declares d call (some d.identifier) none
  /-- The first declaration of the package that is there gives the name. -/
  | declared {before after : List Tree} {expr : Tree} {name : String} :
      listed (fields call) = before ++ expr :: after →
      (∀ e ∈ before, ∀ name, ¬DeclaresAs d.url e name) → DeclaresAs d.url expr name →
      Declares d call (some name) none
  /-- The declaration goes to the end of the array. -/
  | added {reference new : Tree} :
      (∀ e ∈ listed (fields call), ∀ name, ¬DeclaresAs d.url e name) →
      Snippet.packageReference d = .ok reference →
      Extends packageAnchors [reference] call new → Declares d call (some d.identifier) (some new)

theorem declaredName?_eq_none {url : String} {expr : Tree} :
    declaredName? url expr = none ↔ ∀ name, ¬DeclaresAs url expr name := by
  simp only [Option.eq_none_iff_forall_ne_some, ne_eq, declaredName?_eq_some]

theorem findSome?_declaredName? {url name : String} {exprs : List Tree} :
    exprs.findSome? (declaredName? url) = some name ↔
      ∃ before expr after, exprs = before ++ expr :: after ∧
        (∀ e ∈ before, ∀ name, ¬DeclaresAs url e name) ∧ DeclaresAs url expr name := by
  simp only [List.findSome?_eq_some_iff, declaredName?_eq_some, declaredName?_eq_none]
  constructor
  · rintro ⟨before, expr, after, heq, hexpr, hbefore⟩
    exact ⟨before, expr, after, heq, hbefore, hexpr⟩
  · rintro ⟨before, expr, after, heq, hbefore, hexpr⟩
    exact ⟨before, expr, after, heq, hexpr, hbefore⟩

theorem findSome?_declaredName?_eq_none {url : String} {exprs : List Tree} :
    exprs.findSome? (declaredName? url) = none ↔
      ∀ e ∈ exprs, ∀ name, ¬DeclaresAs url e name := by
  simp only [List.findSome?_eq_none_iff, declaredName?_eq_none]

section Declare

variable {find : Tree → Option Site} {around : Tree → Tree} {path : List Nat} {budget : Nat}
  {others : List Tree} {o : Outcome} {call : Tree}

def isEmptyInline (array : Tree) : Bool :=
  array.elements.isEmpty && Edit.Array.isInline array && !Edit.Array.holdsComments array

/-- A new declaration goes to the end of the array, which may be written anew for it. -/
theorem declareIn_cases (layout : Layout) (d : Dependency) {site : Site}
    (hplace : Place find around path (IsCall (budget + 3) others))
    (h : Filled around (IsCall (budget + 3) others) o.tree call)
    (hsite : argumentArray? ⟨path, call⟩ dependenciesLabel = some site) :
    (∃ name, site.tree.elementExprs.findSome? (declaredName? d.url) = some name ∧
        declareIn layout o site d = .ok ⟨o.note (.duplicatePackage d.url name), some name⟩) ∨
      (site.tree.elementExprs.findSome? (declaredName? d.url) = none ∧
        ∃ o' call', declareIn layout o site d = .ok ⟨o', some d.identifier⟩ ∧
          Filled around (IsCall (budget + 3) others) o'.tree call' ∧ o'.changed = true ∧
          Grows [packageTree d] (fields call) (fields call') ∧ o'.diagnostics = o.diagnostics ∧
          Alters (Loses isEmptyInline (fields call)) (grow [(packageTree d).bare]) call call') := by
  rw [declareIn, declaredIn?]
  cases hdeclared : site.tree.elementExprs.findSome? (declaredName? d.url) with
  | some name => exact .inl ⟨name, rfl, rfl⟩
  | none =>
    right
    obtain ⟨_, _, hleads, _⟩ := argumentArray_leads h.holds hsite
    have hlexed := Filled.lexed_inside (s := ⟨path, call⟩) h hplace hleads
    have hfresh := packageTree_fresh budget d
    have harray := argumentArray?_map ⟨path, call⟩ dependenciesLabel
    rw [hsite] at harray
    simp only [snippet, packageReference_eq]
    rw [← isEmptyInline]
    by_cases hempty : isEmptyInline site.tree = true
    · rw [if_pos hempty]
      have hparts := hempty
      rw [isEmptyInline, Bool.and_eq_true, Bool.and_eq_true, Bool.not_eq_true'] at hparts
      have hnone : site.tree.elementExprs = [] := by
        rw [Tree.elementExprs, List.isEmpty_iff.1 hparts.1.1]
        rfl
      have hgrown := reflow_grown layout (Edit.Array.baseLevel layout o.tree site) hleads.holds
        hlexed hparts.2 (List.cons_ne_nil (packageTree d) []) (by simpa using hfresh)
      rw [hnone, List.nil_append] at hgrown
      obtain ⟨call', hfilled, hchanged, hgrows, hregrown⟩ :=
        filled_grow h hplace hsite hgrown (List.cons_ne_nil _ _)
      exact ⟨trivial, _, call', rfl, hfilled, hchanged, hgrows, apply_diagnostics _ _,
        (hregrown.alters h.holds).mono fun hne => ⟨site.tree, harray.symm, hempty, hne⟩⟩
    · rw [if_neg hempty]
      have hgrown := append_grown layout (Edit.Array.elementLevel layout o.tree site)
        hleads.holds hlexed hfresh
      obtain ⟨call', hfilled, hchanged, hgrows, hregrown⟩ :=
        filled_grow h hplace hsite hgrown (List.cons_ne_nil _ _)
      exact ⟨trivial, _, call', rfl, hfilled, hchanged, hgrows, apply_diagnostics _ _,
        (hregrown.alters h.holds).mono False.elim⟩

def provisionNotes (what : String) (candidates : List String) (fs : List Field) :
    List Diagnostic :=
  if (provided? candidates fs).isSome then []
  else if (lookup? dependenciesLabel.toList fs).isSome then
    [.structuralMismatch what "an array literal"]
  else [.missingAnchor dependenciesLabel candidates]

def declareNotes (d : Dependency) (fs : List Field) : List Diagnostic :=
  match (listed fs).findSome? (declaredName? d.url) with
  | some name => [.duplicatePackage d.url name]
  | none => provisionNotes dependenciesLabel packageAnchors fs

/-- Puts expressions at the end of the dependencies of a call without trivia, behind one of the
candidates if they are missing. -/
def extend (candidates : List String) (extra : List Tree) (call : Tree) : Tree :=
  grow extra (supply candidates call)

theorem declare_spec (layout : Layout) (d : Dependency)
    (hplace : Place packageCall? around path (IsCall (budget + 3) others))
    (h : Filled around (IsCall (budget + 3) others) o.tree call) :
    ∃ o' name edited, declare layout o ⟨path, call⟩ d = .ok ⟨o', name⟩ ∧
      Declares d call name edited ∧
      Filled around (IsCall (budget + 3) others) o'.tree (edited.getD call) ∧
      o'.changed = (o.changed || edited.isSome) ∧
      o'.diagnostics = o.diagnostics ++ declareNotes d (fields call) ∧
      ∀ new ∈ edited, Alters (Loses isEmptyInline (fields call))
        (extend packageAnchors [(packageTree d).bare]) call new := by
  have hkept (o : Outcome) : o.changed = (o.changed || false) := (Bool.or_false _).symm
  rw [declare, show ["name", "platforms"] = packageAnchors from rfl]
  rcases provide_cases layout packageAnchors hplace h with
    ⟨o', call', hprovide, hfilled, hprovided, hquiet, hsupply, hsame⟩ |
      ⟨hprovided, ⟨hlookup, hprovide⟩ | ⟨hlookup, hprovide⟩⟩
  · rw [hprovide]
    obtain ⟨array, harray, hexprs, _⟩ := arrayOf?_of_provided? hprovided
    obtain ⟨site, hsite, rfl, _⟩ := exists_site_of_arrayOf? hfilled.holds harray path
    have hfound : (packageCall? o'.tree).bind (fun call => argumentArray? call dependenciesLabel) =
        some site := by
      rw [hfilled.found hplace]
      exact hsite
    simp only [hfound, relocate]
    rcases declareIn_cases layout d hplace hfilled hsite with ⟨name, hname, hdeclare⟩ |
      ⟨hname, o'', call'', hdeclare, hdone, hchanged, hgrows, hsilent, halters⟩
    · rw [hexprs] at hname
      have hlisted : listed (fields call) ≠ [] := by
        intro hnil
        rw [hnil] at hname
        cases hname
      obtain ⟨array, hpresent⟩ := exists_array_of_listed hlisted
      obtain ⟨rfl, rfl⟩ := hsame (by rw [hpresent]; rfl)
      obtain ⟨before, expr, after, hlisted, hbefore, hexpr⟩ := findSome?_declaredName?.1 hname
      refine ⟨_, _, none, hdeclare, .declared hlisted hbefore hexpr, h, hkept o', ?_, nofun⟩
      rw [declareNotes, hname]
      rfl
    · rw [hexprs] at hname
      have hnone := findSome?_declaredName?_eq_none.1 hname
      refine ⟨_, _, some call'', hdeclare, .added hnone (packageReference_eq d) ⟨?_, ?_⟩, hdone,
        by rw [hchanged, Option.isSome_some, Bool.or_true], ?_, ?_⟩
      · rw [hdone.holds.others, h.holds.others]
      · exact ⟨_, hprovided, hgrows⟩
      · rw [hsilent, hquiet, declareNotes, hname, provisionNotes, hprovided]
        exact (List.append_nil _).symm
      · intro new hnew
        obtain rfl := Option.some.inj hnew
        exact (hsupply.trans halters).mono fun hloses =>
          hloses.elim False.elim fun hloses => hloses.of_provided? hprovided
  · rw [hprovide]
    obtain ⟨f, hf⟩ := Option.isSome_iff_exists.1 hlookup
    have hnone : arrayOf? dependenciesLabel.toList (fields call) = none := by
      rw [provided?, hf] at hprovided
      simpa using hprovided
    refine ⟨_, _, none, rfl, .otherShape hlookup hnone, h, hkept o, ?_, nofun⟩
    rw [declareNotes, listed, hnone, provisionNotes, hprovided, hlookup]
    rfl
  · rw [hprovide]
    have hanchor : anchorLabel? packageAnchors (fields call) = none := by
      rw [provided?, hlookup] at hprovided
      simpa using hprovided
    refine ⟨_, _, none, rfl, .noPlace hlookup hanchor, h, hkept o, ?_, nofun⟩
    rw [declareNotes, listed, arrayOf?, hlookup, provisionNotes, hprovided, hlookup]
    rfl

end Declare

/-! ## Once it is declared -/

/-- The name that the products of a dependency go by, none if there is no place to declare it. -/
def nameIn? (d : Dependency) (fs : List Field) : Option String :=
  if (lookup? dependenciesLabel.toList fs).isSome || (anchorLabel? packageAnchors fs).isSome then
    some (((listed fs).findSome? (declaredName? d.url)).getD d.identifier)
  else none

def undeclared (d : Dependency) (fs : List Field) : Bool :=
  (provided? packageAnchors fs).isSome && ((listed fs).findSome? (declaredName? d.url)).isNone

theorem isSome_provided? (candidates : List String) (fs : List Field) :
    (provided? candidates fs).isSome =
      if (lookup? dependenciesLabel.toList fs).isSome then
        (arrayOf? dependenciesLabel.toList fs).isSome
      else (anchorLabel? candidates fs).isSome := by
  unfold provided?
  cases lookup? dependenciesLabel.toList fs with
  | none => simp
  | some f => cases h : (arrayOf? dependenciesLabel.toList fs).isSome <;> simp

theorem nameIn?_congr (d : Dependency) {fs gs : List Field}
    (h : ∀ label ∈ dependenciesLabel :: packageAnchors,
      lookup? label.toList fs = lookup? label.toList gs) :
    nameIn? d fs = nameIn? d gs ∧ undeclared d fs = undeclared d gs := by
  have hlookup := h dependenciesLabel (List.mem_cons_self ..)
  have harray : arrayOf? dependenciesLabel.toList fs = arrayOf? dependenciesLabel.toList gs := by
    rw [arrayOf?, arrayOf?, hlookup]
  have hlisted : listed fs = listed gs := by rw [listed, listed, harray]
  have hanchor : anchorLabel? packageAnchors fs = anchorLabel? packageAnchors gs := by
    have hname := h "name" (by simp [packageAnchors])
    have hplatforms := h "platforms" (by simp [packageAnchors])
    simp only [anchorLabel?, packageAnchors, List.find?, hname, hplatforms]
  rw [nameIn?, nameIn?, undeclared, undeclared, isSome_provided?, isSome_provided?, hlookup, harray,
    hlisted, hanchor]
  exact ⟨rfl, rfl⟩

/-- What declaring a dependency does is decided by the fields of the call. -/
theorem Declares.determined {d : Dependency} {call : Tree} {name : Option String}
    {edited : Option Tree} (h : Declares d call name edited) :
    name = nameIn? d (fields call) ∧ edited.isSome = undeclared d (fields call) := by
  rw [nameIn?, undeclared, isSome_provided?]
  cases h with
  | noPlace hlookup hanchor =>
    rw [hlookup, hanchor]
    exact ⟨rfl, rfl⟩
  | otherShape hlookup hnone =>
    rw [hlookup, listed, hnone]
    exact ⟨rfl, rfl⟩
  | declared hlisted hbefore hexpr =>
    have hname := findSome?_declaredName?.2 ⟨_, _, _, hlisted, hbefore, hexpr⟩
    obtain ⟨array, harray⟩ := exists_array_of_listed (hlisted ▸ List.append_ne_nil_of_right_ne_nil
      _ (List.cons_ne_nil _ _))
    rw [hname, lookup?_of_arrayOf? harray, harray]
    exact ⟨rfl, rfl⟩
  | added hnone _ hextends =>
    obtain ⟨_, base, hbase, _⟩ := hextends
    have hplace := congrArg Option.isSome hbase
    rw [isSome_provided?] at hplace
    rw [findSome?_declaredName?_eq_none.2 hnone, hplace]
    refine ⟨?_, rfl⟩
    cases hlookup : (lookup? dependenciesLabel.toList (fields call)).isSome with
    | true => rfl
    | false =>
      rw [hlookup, if_neg (by decide)] at hplace
      rw [hplace]
      rfl

/-- After the declaration there is nothing left to declare, and the name is the same. -/
theorem Declares.settled {d : Dependency} {call : Tree} {name : Option String}
    {edited : Option Tree} (h : Declares d call name edited) :
    nameIn? d (fields (edited.getD call)) = name ∧
      undeclared d (fields (edited.getD call)) = false := by
  obtain ⟨hname, hedited⟩ := h.determined
  cases h with
  | added hnone hreference hextends =>
    obtain rfl := Except.ok.inj ((packageReference_eq d).symm.trans hreference)
    have hfind : (listed (fields call) ++ [packageTree d]).findSome? (declaredName? d.url) =
        some d.identifier := by
      rw [List.findSome?_append, findSome?_declaredName?_eq_none.2 hnone, Option.none_or,
        List.findSome?_cons, declaredName?_packageTree]
    have hlisted := hextends.listed
    obtain ⟨_, base, _, hgrows⟩ := hextends
    obtain ⟨_, array, _, harray, _⟩ := hgrows.arrayOf?
    rw [Option.getD_some, nameIn?, undeclared, hlisted, hfind, lookup?_of_arrayOf? harray]
    exact ⟨rfl, Bool.and_false _⟩
  | _ => exact ⟨hname.symm, hedited.symm⟩

theorem Declares.lookup? {d : Dependency} {call : Tree} {name : Option String}
    {edited : Option Tree} (h : Declares d call name edited) {label : List Char}
    (hlabel : label ≠ dependenciesLabel.toList) :
    lookup? label (fields (edited.getD call)) = lookup? label (fields call) := by
  cases h with
  | added _ _ hextends => exact hextends.lookup? hlabel
  | _ => rfl

end PackageManifest.Proofs.Addition
