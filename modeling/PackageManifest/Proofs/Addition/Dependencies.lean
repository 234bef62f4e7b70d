import PackageManifest.Proofs.Addition.Alterations

/-!
# The dependencies of a call

The package and its targets list what they depend on in an argument of the same name. `provided?`
says which fields a call has once there is an array for them, and `Extends` says what becomes of
the fields when expressions are appended to that array.
-/

namespace PackageManifest.Proofs.Addition

open Source Grammar Lexing Edits Snippets PackageManifest.Addition

/-! ## One edit -/

/-- An edit inside of a place puts the new tree there, and the manifest stays faithful. -/
theorem filled_apply {find : Tree → Option Site} {find' : Site → Option Site}
    {around build : Tree → Tree} {path q : List Nat} {P Q : Tree → Prop} {o : Outcome}
    {outer new : Tree} {site : Site} (h : Filled around P o.tree outer)
    (hplace : Place find around path P) (hleads : Leads find' build q P Q ⟨path, outer⟩ site)
    (hnew : Q new) (hkind : new.kind = site.tree.kind)
    (hrelexes : Relexes site.tree.tokens new.tokens) :
    Filled around P (o.apply ⟨site, new⟩).tree (build new) := by
  have hinner := h.inside hleads
  refine Filled.outside ?_ hleads.toSlot
  unfold Outcome.apply
  split
  · rename_i hnoop
    have heq : site.tree = new := beq_iff_eq.1 hnoop
    rwa [heq] at hinner
  · simp only [Edit.applyTo?, if_pos hkind, Option.getD_some, hleads.path_eq]
    exact hinner.set (hplace.inside hleads.toSlot) hnew hrelexes

theorem apply_diagnostics (o : Outcome) (e : Edit) :
    (o.apply e).diagnostics = o.diagnostics := by
  unfold Outcome.apply
  split <;> rfl

/-! ## Arrays among the fields -/

def arrayOf? (label : List Char) (fs : List Field) : Option Tree :=
  ((lookup? label fs).bind Prod.snd).filter (Tree.isNode .arrayExpr)

theorem argumentArray?_map (call : Site) (label : String) :
    (argumentArray? call label).map Site.tree = arrayOf? label.toList (fields call.tree) := by
  rw [arrayOf?, ← argumentValue?_field, ← Site.argumentValue?_map, argumentArray?]
  cases call.argumentValue? label.toList with
  | none => rfl
  | some value =>
    simp only [Option.filter, Option.map_some]
    split <;> rfl

theorem arrayOf?_eq_some {label : List Char} {fs : List Field} {array : Tree} :
    arrayOf? label fs = some array ↔
      (lookup? label fs).bind Prod.snd = some array ∧ array.isNode .arrayExpr = true := by
  rw [arrayOf?, Option.filter_eq_some_iff]

theorem lookup?_of_arrayOf? {label : List Char} {fs : List Field} {array : Tree}
    (h : arrayOf? label fs = some array) : (lookup? label fs).isSome = true := by
  obtain ⟨f, hf, _⟩ := Option.bind_eq_some_iff.1 (arrayOf?_eq_some.1 h).1
  rw [hf]
  rfl

theorem arrayOf?_setField {label : List Char} {fs : List Field} {array : Tree}
    (h : (lookup? label fs).isSome = true) (harray : array.isNode .arrayExpr = true) :
    arrayOf? label (setField label array fs) = some array := by
  rw [arrayOf?_eq_some, lookup?_setField array h]
  exact ⟨rfl, harray⟩

theorem arrayOf?_bareField (label : List Char) (fs : List Field) :
    arrayOf? label (fs.map bareField) = (arrayOf? label fs).map Tree.bare := by
  rw [arrayOf?, arrayOf?, lookup?_bareField]
  cases lookup? label fs with
  | none => rfl
  | some f =>
    obtain ⟨found, value⟩ := f
    cases value with
    | none => rfl
    | some value =>
      simp only [Option.map_some, Option.bind_some, bareField, Option.filter, Tree.isNode_bare]
      split <;> rfl

def provided? (candidates : List String) (fs : List Field) : Option (List Field) :=
  match lookup? dependenciesLabel.toList fs with
  | some _ => if (arrayOf? dependenciesLabel.toList fs).isSome then some fs else none
  | none =>
    (anchorLabel? candidates fs).map fun c =>
      insertField c.toList (some dependenciesLabel.toList, some emptyArrayTree) fs

def listed (fs : List Field) : List Tree :=
  ((arrayOf? dependenciesLabel.toList fs).map Tree.elementExprs).getD []

theorem listed_eq {fs : List Field} {array : Tree}
    (h : arrayOf? dependenciesLabel.toList fs = some array) : listed fs = array.elementExprs := by
  rw [listed, h]
  rfl

theorem listed_bareField (fs : List Field) :
    listed (fs.map bareField) = (listed fs).map Tree.bare := by
  rw [listed, listed, arrayOf?_bareField]
  cases arrayOf? dependenciesLabel.toList fs with
  | none => rfl
  | some array => exact Tree.elementExprs_bare array

theorem exists_array_of_listed {fs : List Field} (h : listed fs ≠ []) :
    ∃ array, arrayOf? dependenciesLabel.toList fs = some array := by
  cases harray : arrayOf? dependenciesLabel.toList fs with
  | none =>
    rw [listed, harray] at h
    exact absurd rfl h
  | some array => exact ⟨array, rfl⟩

/-- A call that was provided with an array lists what it listed before. The array is the one that
was there, unless it is a new one. -/
theorem arrayOf?_of_provided? {candidates : List String} {fs base : List Field}
    (h : provided? candidates fs = some base) :
    ∃ array, arrayOf? dependenciesLabel.toList base = some array ∧
      array.elementExprs = listed fs ∧
      (array ≠ emptyArrayTree → arrayOf? dependenciesLabel.toList fs = some array) := by
  unfold provided? at h
  split at h
  · split at h
    · rename_i hsome
      cases h
      obtain ⟨array, harray⟩ := Option.isSome_iff_exists.1 hsome
      exact ⟨array, harray, (listed_eq harray).symm, fun _ => harray⟩
    · cases h
  · rename_i hnone
    obtain ⟨c, hc, rfl⟩ := Option.map_eq_some_iff.1 h
    refine ⟨emptyArrayTree, ?_, ?_, fun hne => absurd rfl hne⟩
    · rw [arrayOf?, lookup?_insertField _ (lookup?_of_anchorLabel? hc) hnone]
      rfl
    · rw [listed, arrayOf?, hnone]
      rfl

/-- The array of dependencies is written anew where `p` holds of it, and there is something to be
lost between its brackets. -/
def Loses (p : Tree → Bool) (fs : List Field) : Prop :=
  ∃ array, arrayOf? dependenciesLabel.toList fs = some array ∧ p array = true ∧
    array ≠ emptyArrayTree

theorem Loses.of_provided? {p : Tree → Bool} {candidates : List String} {fs base : List Field}
    (h : Loses p base) (hprovided : provided? candidates fs = some base) : Loses p fs := by
  obtain ⟨array, harray, hp, hne⟩ := h
  obtain ⟨array', harray', _, hsame⟩ := arrayOf?_of_provided? hprovided
  obtain rfl := Option.some.inj (harray.symm.trans harray')
  exact ⟨array, hsame hne, hp, hne⟩

/-! ## More expressions in the array -/

def Grows (extra : List Tree) (fs new : List Field) : Prop :=
  ∃ array array', arrayOf? dependenciesLabel.toList fs = some array ∧
    array'.isNode .arrayExpr = true ∧ array'.elementExprs = array.elementExprs ++ extra ∧
    new = setField dependenciesLabel.toList array' fs

theorem Grows.refl {fs : List Field} {array : Tree}
    (h : arrayOf? dependenciesLabel.toList fs = some array) : Grows [] fs fs := by
  obtain ⟨hvalue, hnode⟩ := arrayOf?_eq_some.1 h
  exact ⟨array, array, h, hnode, (List.append_nil _).symm, (setField_self hvalue).symm⟩

theorem Grows.arrayOf? {extra : List Tree} {fs new : List Field} (h : Grows extra fs new) :
    ∃ array array', arrayOf? dependenciesLabel.toList fs = some array ∧
      arrayOf? dependenciesLabel.toList new = some array' ∧
      array'.elementExprs = array.elementExprs ++ extra := by
  obtain ⟨array, array', harray, hnode, hexprs, rfl⟩ := h
  exact ⟨array, array', harray, arrayOf?_setField (lookup?_of_arrayOf? harray) hnode, hexprs⟩

theorem Grows.listed {extra : List Tree} {fs new : List Field} (h : Grows extra fs new) :
    listed new = listed fs ++ extra := by
  obtain ⟨array, array', harray, harray', hexprs⟩ := h.arrayOf?
  rw [listed_eq harray', listed_eq harray, hexprs]

theorem Grows.trans {extra more : List Tree} {fs mid new : List Field} (h : Grows extra fs mid)
    (h' : Grows more mid new) : Grows (extra ++ more) fs new := by
  obtain ⟨first, second, hfirst, hnode, hexprs, rfl⟩ := h
  obtain ⟨second', third, hsecond, hnode', hexprs', rfl⟩ := h'
  rw [arrayOf?_setField (lookup?_of_arrayOf? hfirst) hnode] at hsecond
  obtain rfl := Option.some.inj hsecond
  refine ⟨first, third, hfirst, hnode', ?_, setField_setField _ _⟩
  rw [hexprs', hexprs, List.append_assoc]

def Extends (candidates : List String) (extra : List Tree) (call new : Tree) : Prop :=
  besides new = besides call ∧
    ∃ base, provided? candidates (fields call) = some base ∧ Grows extra base (fields new)

theorem Extends.listed {candidates : List String} {extra : List Tree} {call new : Tree}
    (h : Extends candidates extra call new) :
    listed (fields new) = listed (fields call) ++ extra := by
  obtain ⟨_, base, hbase, hgrows⟩ := h
  obtain ⟨array, harray, hexprs, _⟩ := arrayOf?_of_provided? hbase
  rw [hgrows.listed, listed_eq harray, hexprs]

theorem Extends.lookup? {candidates : List String} {extra : List Tree} {call new : Tree}
    (h : Extends candidates extra call new) {label : List Char}
    (hlabel : label ≠ dependenciesLabel.toList) :
    lookup? label (fields new) = lookup? label (fields call) := by
  obtain ⟨_, base, hbase, array, array', _, _, _, hnew⟩ := h
  rw [hnew, lookup?_setField_of_ne _ hlabel]
  unfold provided? at hbase
  split at hbase
  · split at hbase
    · rw [Option.some.inj hbase]
    · cases hbase
  · obtain ⟨c, _, rfl⟩ := Option.map_eq_some_iff.1 hbase
    exact lookup?_insertField_of_ne (by simpa using hlabel.symm)

/-! ## Expressions without trivia -/

section Bare

variable {budget : Nat} {e : Tree}

theorem declaredName?_bare (h : Sequence (Operand budget) e) (url : String) :
    declaredName? url e.bare = declaredName? url e := by
  rw [declaredName?, declaredName?, Tree.isMemberCall_bare]
  cases hcall : e.isMemberCall "package".toList with
  | false => rfl
  | true =>
    obtain ⟨_, hcall⟩ := isCall_of_sequence h (Bool.and_eq_true_iff.1 hcall).1
    rw [stringArgument?_bare hcall, stringArgument?_bare hcall]

theorem usesProduct_bare (h : Sequence (Operand budget) e) (product package : String) :
    usesProduct product package e.bare = usesProduct product package e := by
  rw [usesProduct, usesProduct, Tree.isMemberCall_bare]
  cases hcall : e.isMemberCall "product".toList with
  | false => rfl
  | true =>
    obtain ⟨_, hcall⟩ := isCall_of_sequence h (Bool.and_eq_true_iff.1 hcall).1
    rw [stringArgument?_bare hcall, stringArgument?_bare hcall]

end Bare

/-! ## Edits of the dependencies -/

section Provide

variable {find : Tree → Option Site} {around : Tree → Tree} {path : List Nat} {budget : Nat}
  {others : List Tree} {o : Outcome} {call : Tree}

theorem insert_cases (layout : Layout) (root : Tree) (candidates : List String) (ownLine : Bool)
    (hcall : IsCall (budget + 1) others call) :
    (anchorLabel? candidates (fields call) = none ∧
        Edit.Argument.insertAfterFirst layout root ⟨path, call⟩ candidates dependenciesLabel
          emptyArrayTree ownLine = .error (.missingAnchor dependenciesLabel candidates)) ∨
      ∃ c build q list new, anchorLabel? candidates (fields call) = some c ∧
        Edit.Argument.insertAfterFirst layout root ⟨path, call⟩ candidates dependenciesLabel
          emptyArrayTree ownLine = .ok ⟨list, new⟩ ∧
        Leads Site.argumentList? build q (IsCall (budget + 1) others)
          (Arguments (Operand (budget + 1)) .lParen .rParen) ⟨path, call⟩ list ∧
        Arguments (Operand (budget + 1)) .lParen .rParen new ∧
        Relexes list.tree.tokens new.tokens ∧
        fields (build new) = insertField c.toList
          (some dependenciesLabel.toList, some emptyArrayTree) (fields call) := by
  cases hlist : (⟨path, call⟩ : Site).argumentList? with
  | none =>
    left
    have hnone : call.argumentList? = none := by
      have := Site.child?_map ⟨path, call⟩ (Tree.isNode .argumentList)
      rw [show Site.child? _ _ = _ from hlist] at this
      exact this.symm
    have hfields : fields call = [] := by
      rw [fields, Tree.arguments, hnone]
      rfl
    refine ⟨?_, by rw [Edit.Argument.insertAfterFirst, hlist]⟩
    rw [hfields, anchorLabel?, List.find?_eq_none]
    simp [lookup?]
  | some list =>
    obtain ⟨build, q, hleads, hfields⟩ := argumentList_leads hcall hlist
    rcases insertAfterFirst_cases layout root candidates dependenciesLabel ownLine hlist
        hleads.holds ⟨(emptyArrayTree_literal budget).sequence, [], emptyArrayTree_lexed⟩
        isWord_dependencies with
      hnone | ⟨c, new, hc, hinsert, hnew, hrelexes, hmap⟩
    · exact .inl hnone
    · refine .inr ⟨c, build, q, list, new, hc, hinsert, hleads, hnew, hrelexes, ?_⟩
      rw [hfields new hnew, hmap]

/-- There is an array for the dependencies after the provision, or there cannot be one. -/
theorem provide_cases (layout : Layout) (candidates : List String)
    (hplace : Place find around path (IsCall (budget + 1) others))
    (h : Filled around (IsCall (budget + 1) others) o.tree call) :
    (∃ o' call', provideDependencies layout o ⟨path, call⟩ candidates = .ok (.ready o') ∧
        Filled around (IsCall (budget + 1) others) o'.tree call' ∧
        provided? candidates (fields call) = some (fields call') ∧
        o'.diagnostics = o.diagnostics ∧ Alters False (supply candidates) call call' ∧
        ((arrayOf? dependenciesLabel.toList (fields call)).isSome = true →
          o' = o ∧ call' = call)) ∨
      (provided? candidates (fields call) = none ∧
        ((lookup? dependenciesLabel.toList (fields call)).isSome = true ∧
            provideDependencies layout o ⟨path, call⟩ candidates = .ok .otherShape ∨
          lookup? dependenciesLabel.toList (fields call) = none ∧
            provideDependencies layout o ⟨path, call⟩ candidates =
              .ok (.noPlace (.missingAnchor dependenciesLabel candidates)))) := by
  have hlookup := argument?_field ⟨path, call⟩ dependenciesLabel.toList
  have harray := congrArg Option.isSome (argumentArray?_map ⟨path, call⟩ dependenciesLabel)
  rw [Option.isSome_map] at harray
  unfold provideDependencies
  cases hargument : (⟨path, call⟩ : Site).argument? dependenciesLabel.toList with
  | some a =>
    rw [hargument] at hlookup
    simp only [harray]
    cases hsome : (arrayOf? dependenciesLabel.toList (fields call)).isSome with
    | true =>
      refine .inl ⟨o, call, rfl, h, ?_, rfl, ⟨?_, .refl _ _, .inl rfl⟩, fun _ => ⟨rfl, rfl⟩⟩
      · simp [provided?, ← hlookup, hsome]
      · rw [supply, fields_bare h.holds, lookup?_bareField, ← hlookup]
        rfl
    | false =>
      refine .inr ⟨?_, .inl ⟨by rw [← hlookup]; rfl, rfl⟩⟩
      simp [provided?, ← hlookup, hsome]
  | none =>
    rw [hargument, Option.map_none] at hlookup
    have hprovided : provided? candidates (fields call) =
        (anchorLabel? candidates (fields call)).map fun c => insertField c.toList
          (some dependenciesLabel.toList, some emptyArrayTree) (fields call) := by
      rw [provided?, ← hlookup]
    have hnone : (arrayOf? dependenciesLabel.toList (fields call)).isSome = false := by
      rw [arrayOf?, ← hlookup]
      rfl
    simp only [snippet, emptyArray_eq]
    rcases insert_cases layout o.tree candidates
        (Edit.Argument.isMultiline (⟨path, call⟩ : Site).tree) h.holds with
      ⟨hanchor, herror⟩ | ⟨c, build, q, list, new, hc, hok, hleads, hnew, hrelexes, hfields⟩
    · refine .inr ⟨by rw [hprovided, hanchor]; rfl, .inr ⟨hlookup.symm, ?_⟩⟩
      rw [herror]
    · left
      have hkind := Tree.kind_eq_of_isNode hnew.isNode hleads.holds.isNode
      refine ⟨_, build new, by rw [hok], filled_apply h hplace hleads hnew hkind hrelexes, ?_,
        apply_diagnostics _ _, ?_, ?_⟩
      · rw [hprovided, hc, hfields]
        rfl
      · exact alters_supply layout o.tree h.holds hlookup.symm hc hleads hok hnew.isNode
      · rw [hnone]
        intro hsome
        cases hsome

theorem exists_site_of_arrayOf? {array : Tree} (hcall : IsCall (budget + 1) others call)
    (h : arrayOf? dependenciesLabel.toList (fields call) = some array) (path : List Nat) :
    ∃ site, argumentArray? ⟨path, call⟩ dependenciesLabel = some site ∧ site.tree = array ∧
      ArrayLiteral (Operand budget) array := by
  have hmap := argumentArray?_map ⟨path, call⟩ dependenciesLabel
  rw [show fields (Site.tree _) = _ from rfl, h] at hmap
  obtain ⟨site, hsite, rfl⟩ := Option.map_eq_some_iff.1 hmap
  obtain ⟨_, _, hleads, _⟩ := argumentArray_leads hcall hsite
  exact ⟨site, hsite, rfl, hleads.holds⟩

theorem sequence_of_mem_listed (hcall : IsCall (budget + 1) others call) {e : Tree}
    (he : e ∈ listed (fields call)) : Sequence (Operand budget) e := by
  obtain ⟨array, harray⟩ := exists_array_of_listed (List.ne_nil_of_mem he)
  obtain ⟨_, _, _, hliteral⟩ := exists_site_of_arrayOf? hcall harray []
  rw [listed_eq harray] at he
  exact sequence_of_mem_elementExprs hliteral he

/-- The array that a call has is replaced by one with more elements. -/
theorem filled_grow {lossy : Prop} {new : Tree} {site : Site} {extra : List Tree}
    (h : Filled around (IsCall (budget + 1) others) o.tree call)
    (hplace : Place find around path (IsCall (budget + 1) others))
    (hsite : argumentArray? ⟨path, call⟩ dependenciesLabel = some site)
    (hnew : Grown lossy budget site.tree new extra) (hextra : extra ≠ []) :
    ∃ call', Filled around (IsCall (budget + 1) others) (o.apply ⟨site, new⟩).tree call' ∧
      (o.apply ⟨site, new⟩).changed = true ∧ Grows extra (fields call) (fields call') ∧
      Regrown path budget others lossy extra call call' := by
  obtain ⟨build, q, hleads, hfields⟩ := argumentArray_leads h.holds hsite
  have hkind := Tree.kind_eq_of_isNode hnew.literal.isNode hleads.holds.isNode
  have harray := argumentArray?_map ⟨path, call⟩ dependenciesLabel
  rw [hsite] at harray
  have hchanges : Edit.isNoop ⟨site, new⟩ = false := by
    rw [Edit.isNoop, beq_eq_false_iff_ne]
    intro (heq : site.tree = new)
    have hexprs := hnew.elementExprs
    rw [← heq, List.self_eq_append_right] at hexprs
    exact hextra hexprs
  refine ⟨build new, filled_apply h hplace hleads hnew.literal hkind hnew.relexes, ?_,
    ⟨site.tree, new, harray.symm, hnew.literal.isNode, hnew.elementExprs, hfields new hnew.literal⟩,
    build, q, site, new, hleads, hnew, rfl⟩
  rw [Outcome.apply, hchanges]
  rfl

end Provide

end PackageManifest.Proofs.Addition
