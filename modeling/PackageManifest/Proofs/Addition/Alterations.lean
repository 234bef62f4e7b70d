import PackageManifest.Proofs.Edits.Keeping

/-!
# How a call is altered

An addition works on the dependencies of a call: it supplies the call with an array for them and
grows that array. `Alters` says what this comes to when trivia is left out of account, what it
keeps, and that nothing but the argument list of the call is touched.
-/

namespace PackageManifest.Proofs.Addition

open Source Grammar Lexing Edits Snippets PackageManifest.Addition

def emptyArgument (last : Bool) : Tree :=
  (Edit.Argument.argument dependenciesLabel.toList emptyArrayTree last).bare

/-- Gives a call without trivia an empty array for its dependencies, if they are missing and one of
the candidates is there. -/
def supply (candidates : List String) (call : Tree) : Tree :=
  match lookup? dependenciesLabel.toList (fields call), anchorLabel? candidates (fields call) with
  | none, some c =>
    alter (Tree.isNode .argumentList)
      (fun list => .node .argumentList (putBehind c.toList emptyArgument list.children)) call
  | _, _ => call

def grow (extra : List Tree) : Tree → Tree :=
  alterValue dependenciesLabel.toList fun array => plainArray (array.elementExprs ++ extra)

/-! ## Another argument list -/

def Relisted (call new : Tree) : Prop :=
  new = call ∨ ∃ list list', call.site.argumentList? = some list ∧
    list'.isNode .argumentList = true ∧ new = call.set list.path list'

theorem child?_site {s c : Site} {p : Tree → Bool} {path : List Nat} (h : s.child? p = some c)
    (hpath : c.path = s.path ++ path) : s.tree.site.child? p = some ⟨path, c.tree⟩ := by
  obtain ⟨left, right, hsplit, hleft, hc, hleft'⟩ := Site.child?_eq_some.1 h
  have hpath : path = [left.length] := List.append_cancel_left (hpath.symm.trans hleft')
  exact Site.child?_eq_some.2 ⟨left, right, hsplit, hleft, hc, hpath⟩

theorem argumentList?_set {call list' : Tree} {list : Site}
    (h : call.site.argumentList? = some list) (hlist' : list'.isNode .argumentList = true) :
    (call.set list.path list').site.argumentList? = some ⟨list.path, list'⟩ ∧
      ∀ t, (call.set list.path list').set list.path t = call.set list.path t := by
  obtain ⟨kind, left, right, hcall, hleft, _, hpath⟩ := Site.child?_node h
  have hset (t u : Tree) : (Source.Tree.node kind (left ++ t :: right)).set list.path u =
      .node kind (left ++ u :: right) := by
    rw [hpath]
    exact (Spot.here.child kind left right).set t u
  rw [show call = _ from hcall, hset]
  refine ⟨Site.child?_eq_some.2 ⟨left, right, rfl, hleft, hlist', hpath⟩, fun t => ?_⟩
  rw [hset, hset]

theorem Relisted.trans {call mid new : Tree} (h : Relisted call mid) (h' : Relisted mid new) :
    Relisted call new := by
  rcases h with rfl | ⟨list, list', hlist, hnode, rfl⟩
  · exact h'
  · obtain ⟨hfound, hset⟩ := argumentList?_set hlist hnode
    rcases h' with rfl | ⟨other, list'', hother, hnode', rfl⟩
    · exact .inr ⟨list, list', hlist, hnode, rfl⟩
    · obtain rfl := Option.some.inj (hfound.symm.trans hother)
      exact .inr ⟨list, list'', hlist, hnode', hset list''⟩

/-! ## Alterations -/

/-- The call `new` is what `f` makes of `call` when trivia is left out, it keeps what was there, and
only the argument list is another one. -/
structure Alters (lossy : Prop) (f : Tree → Tree) (call new : Tree) : Prop where
  bare : new.bare = f call.bare
  keeps : Keeps lossy call.tokens new.tokens
  relisted : Relisted call new

theorem Alters.refl (p : Prop) (call : Tree) : Alters p id call call :=
  ⟨rfl, .refl p _, .inl rfl⟩

theorem Alters.trans {p q : Prop} {f g : Tree → Tree} {call mid new : Tree}
    (h : Alters p f call mid) (h' : Alters q g mid new) :
    Alters (p ∨ q) (fun t => g (f t)) call new where
  bare := by rw [h'.bare, h.bare]
  keeps := h.keeps.trans h'.keeps
  relisted := h.relisted.trans h'.relisted

theorem Alters.mono {p q : Prop} {f : Tree → Tree} {call new : Tree} (h : Alters p f call new)
    (hpq : p → q) : Alters q f call new :=
  ⟨h.bare, h.keeps.mono hpq, h.relisted⟩

theorem Alters.congr {p : Prop} {f g : Tree → Tree} {call new : Tree} (h : Alters p f call new)
    (hfg : f call.bare = g call.bare) : Alters p g call new :=
  ⟨h.bare.trans hfg, h.keeps, h.relisted⟩

section Alters

variable {budget : Nat} {others : List Tree} {call new : Tree} {path q : List Nat}
  {build : Tree → Tree}

theorem alters_supply (layout : Layout) (root : Tree) {candidates : List String} {c : String}
    {ownLine : Bool} {list : Site} (hcall : IsCall budget others call)
    (hnone : lookup? dependenciesLabel.toList (fields call) = none)
    (hanchor : anchorLabel? candidates (fields call) = some c)
    (hleads : Leads Site.argumentList? build q (IsCall budget others)
      (Arguments (Operand budget) .lParen .rParen) ⟨path, call⟩ list)
    (hinsert : Edit.Argument.insertAfterFirst layout root ⟨path, call⟩ candidates dependenciesLabel
      emptyArrayTree ownLine = .ok ⟨list, new⟩)
    (hnew : new.isNode .argumentList = true) :
    Alters False (supply candidates) call (build new) where
  bare := by
    obtain ⟨outer, p, htraces⟩ := Traces.child (fun t _ => Tree.blind_isNode _ t) hleads.finds
    have hbare := insertAfterFirst_bare layout root hleads.finds hleads.holds hanchor hinsert
    have hsolid := Tree.isTrivia_of_token? (Tree.token?_of_isNode hnew)
    rw [htraces.build_eq hleads, supply, fields_bare hcall, lookup?_bareField, hnone,
      anchorLabel?_bareField, hanchor]
    exact (htraces.alters hsolid hbare.symm).symm
  keeps := by
    obtain ⟨before, after, htokens⟩ := hleads.tokens
    have hvalue : comments emptyArrayTree.tokens = [] := rfl
    have hkeeps := insertAfterFirst_keeps layout root hleads.finds hleads.holds.isNode
      (comments_argument _ hvalue) hinsert
    rw [show call = _ from hleads.tree_eq, htokens, htokens]
    exact hkeeps.around before after
  relisted :=
    .inr ⟨⟨q, list.tree⟩, new, child?_site hleads.finds hleads.path_eq, hnew,
      (hleads.set_eq new).symm⟩

theorem alters_inside {lossy : Prop} {find : Site → Option Site} {P Q : Tree → Prop}
    {g : (Tree → Tree) → Tree → Tree} {f : Tree → Tree} {outer inner : Tree → Tree}
    {p r : List Nat} {list site : Site} (hlist : (⟨path, call⟩ : Site).argumentList? = some list)
    (houter : Traces (alter (Tree.isNode .argumentList)) outer p ⟨path, call⟩ list)
    (hinner : Traces g inner r list site) (hleads : Leads find build q P Q ⟨path, call⟩ site)
    (hsolid : new.isTrivia = false) (hbare : f site.tree.bare = new.bare)
    (hkeeps : Keeps lossy site.tree.tokens new.tokens) :
    Alters lossy (alter (Tree.isNode .argumentList) (g f)) call (build new) := by
  have hall := houter.inside hinner
  refine ⟨?_, ?_, .inr ⟨⟨p, list.tree⟩, inner new, child?_site hlist houter.path_eq, ?_, ?_⟩⟩
  · rw [hall.build_eq hleads]
    exact (hall.alters hsolid hbare).symm
  · obtain ⟨before, after, htokens⟩ := hleads.tokens
    rw [show call = _ from hleads.tree_eq, htokens, htokens]
    exact hkeeps.around before after
  · have hnode := List.find?_some hlist
    rw [Tree.isNode, hinner.kind_eq]
    exact hnode
  · rw [hall.build_eq hleads, show call = _ from houter.tree_eq, houter.spot.set]

theorem alters_grow {lossy : Prop} {site : Site} {extra : List Tree}
    (hcall : IsCall (budget + 1) others call)
    (hleads : Leads (fun s => argumentArray? s dependenciesLabel) build q
      (IsCall (budget + 1) others) (ArrayLiteral (Operand budget)) ⟨path, call⟩ site)
    (hnew : Grown lossy budget site.tree new extra) :
    Alters lossy (grow (extra.map Tree.bare)) call (build new) := by
  obtain ⟨hvalue, _⟩ := Option.filter_eq_some_iff.1 hleads.finds
  obtain ⟨list, outer, p, inner, r, hlist, houter, hinner⟩ := argumentValue_traces hcall hvalue
  have hsolid := Tree.isTrivia_of_token? (Tree.token?_of_isNode hnew.literal.isNode)
  have hbare : plainArray (site.tree.bare.elementExprs ++ extra.map Tree.bare) = new.bare := by
    rw [Tree.elementExprs_bare, hnew.bare, List.map_append]
  have halters := alters_inside
    (f := fun array => plainArray (array.elementExprs ++ extra.map Tree.bare))
    hlist houter hinner hleads hsolid hbare hnew.keeps
  exact halters

end Alters

def Regrown (path : List Nat) (budget : Nat) (others : List Tree) (lossy : Prop)
    (extra : List Tree) (call new : Tree) : Prop :=
  ∃ build q site array, Leads (fun s => argumentArray? s dependenciesLabel) build q
      (IsCall (budget + 1) others) (ArrayLiteral (Operand budget)) ⟨path, call⟩ site ∧
    Grown lossy budget site.tree array extra ∧ new = build array

section Regrown

variable {path : List Nat} {budget : Nat} {others : List Tree} {p q : Prop} {extra more : List Tree}
  {call mid new : Tree}

theorem Regrown.alters (h : Regrown path budget others p extra call new)
    (hcall : IsCall (budget + 1) others call) :
    Alters p (grow (extra.map Tree.bare)) call new := by
  obtain ⟨build, _, site, array, hleads, hgrown, rfl⟩ := h
  exact alters_grow hcall hleads hgrown

theorem Regrown.trans (h : Regrown path budget others p extra call mid)
    (h' : Regrown path budget others q more mid new) :
    Regrown path budget others (p ∨ q) (extra ++ more) call new := by
  obtain ⟨build, way, site, array, hleads, hgrown, rfl⟩ := h
  obtain ⟨build', way', site', array', hleads', hgrown', rfl⟩ := h'
  -- The second array is the one that the first step has left, at the same place.
  have hsite : site' = ⟨path ++ way, array⟩ :=
    Option.some.inj (hleads'.finds.symm.trans (hleads.found path hgrown.literal))
  have hway : way' = way := by
    have hpath := hleads'.path_eq
    rw [hsite] at hpath
    exact (List.append_cancel_left hpath).symm
  have hbuild : build' array' = build array' := by
    rw [← hleads'.set_eq, hway]
    exact hleads.spot.set array array'
  rw [hsite] at hgrown'
  exact ⟨build, way, site, array', hleads, hgrown.trans hgrown', hbuild⟩

end Regrown

end PackageManifest.Proofs.Addition
