import PackageManifest.Proofs.Edits.Arguments
import PackageManifest.Proofs.Grammar.Rebinding
import PackageManifest.Proofs.RoundTrip

/-!
# Trees that are what their text parses to

A `Faithful` tree is the one that its own text parses to. A `Place` is a position in it whose
contents may be replaced without losing that, by anything of the same rule whose tokens are cut in
the same way. `Filled` says what stands there.
-/

namespace PackageManifest.Proofs

open Source Grammar Lexing Edits

/-- The tree of a manifest is the one its text parses to. -/
def Faithful (root : Tree) : Prop := parse root.print = .ok root

theorem faithful_iff {root : Tree} :
    Faithful root ↔ ∃ children, root = .node .sourceFile children ∧
      items root.tokens = .ok children ∧ Lexed root.tokens [] := by
  rw [Faithful, parse, Tree.print, String.toList_ofList]
  constructor
  · intro h
    obtain ⟨hfaults, children, hitems, hroot⟩ := RoundTrip.parseText_eq_ok_iff.1 h
    rw [RoundTrip.tokens_of_parseText h]
    exact ⟨children, hroot, hitems, lexed_tokens hfaults⟩
  · rintro ⟨children, hroot, hitems, hlexed⟩
    rw [RoundTrip.parseText_eq_ok_iff, Tree.text, tokens_of_lexed hlexed, faults_of_lexed hlexed]
    exact ⟨rfl, children, hitems, hroot⟩

theorem faithful_of_parse {source : String} {tree : Tree} (h : parse source = .ok tree) :
    Faithful tree := by
  rw [Faithful, RoundTrip.print_of_tokens (RoundTrip.tokens_of_parseText h)]
  exact h

/-! ## Places that can be filled anew -/

/-- A place inside of a tree with `P`, found from that tree's site by `find`, at which anything with
`Q` may stand. -/
structure Slot (find : Site → Option Site) (build : Tree → Tree) (path : List Nat)
    (P Q : Tree → Prop) : Prop where
  spot : Spot build path
  keeps : ∀ {t : Tree}, Q t → P (build t)
  tokens : ∃ before after, ∀ t, (build t).tokens = before ++ t.tokens ++ after
  found : ∀ {t : Tree} (above : List Nat), Q t → find ⟨above, build t⟩ = some ⟨above ++ path, t⟩

theorem Slot.relexes {find : Site → Option Site} {build : Tree → Tree} {path : List Nat}
    {P Q : Tree → Prop} (h : Slot find build path P Q) {old new : Tree}
    (hrelexes : Relexes old.tokens new.tokens) :
    Relexes (build old).tokens (build new).tokens := by
  obtain ⟨before, after, htokens⟩ := h.tokens
  rw [htokens, htokens]
  exact hrelexes.around before after

theorem exists_tokens_inside {around build : Tree → Tree}
    (h : ∃ before after, ∀ t, (around t).tokens = before ++ t.tokens ++ after)
    (h' : ∃ before after, ∀ t, (build t).tokens = before ++ t.tokens ++ after) :
    ∃ before after, ∀ t, (around (build t)).tokens = before ++ t.tokens ++ after := by
  obtain ⟨before, after, houter⟩ := h
  obtain ⟨before', after', hinner⟩ := h'
  exact ⟨before ++ before', after' ++ after, fun t => by simp [houter, hinner]⟩

theorem Slot.inside {find find' : Site → Option Site} {build build' : Tree → Tree}
    {path path' : List Nat} {P Q R : Tree → Prop} (h : Slot find build path P Q)
    (h' : Slot find' build' path' Q R) :
    Slot (fun s => (find s).bind find') (fun t => build (build' t)) (path ++ path') P R where
  spot := h.spot.inside h'.spot
  keeps ht := h.keeps (h'.keeps ht)
  tokens := exists_tokens_inside h.tokens h'.tokens
  found above ht := by
    rw [h.found above (h'.keeps ht), Option.bind_some, h'.found _ ht, List.append_assoc]

/-- The way from one site to another, as a slot of the tree at the first one. -/
structure Leads (find : Site → Option Site) (build : Tree → Tree) (path : List Nat)
    (P Q : Tree → Prop) (s c : Site) : Prop extends Slot find build path P Q where
  tree_eq : s.tree = build c.tree
  path_eq : c.path = s.path ++ path
  holds : Q c.tree

theorem Leads.finds {find : Site → Option Site} {build : Tree → Tree} {path : List Nat}
    {P Q : Tree → Prop} {s c : Site} (h : Leads find build path P Q s c) : find s = some c := by
  have hfound := h.found s.path h.holds
  rwa [← h.tree_eq, ← h.path_eq] at hfound

theorem Leads.set_eq {find : Site → Option Site} {build : Tree → Tree} {path : List Nat}
    {P Q : Tree → Prop} {s c : Site} (h : Leads find build path P Q s c) (new : Tree) :
    s.tree.set path new = build new := by
  rw [h.tree_eq, h.spot.set]

theorem Leads.inside {find find' : Site → Option Site} {build build' : Tree → Tree}
    {path path' : List Nat} {P Q R : Tree → Prop} {s c e : Site}
    (h : Leads find build path P Q s c) (h' : Leads find' build' path' Q R c e) :
    Leads (fun s => (find s).bind find') (fun t => build (build' t)) (path ++ path') P R s e where
  toSlot := h.toSlot.inside h'.toSlot
  tree_eq := by rw [h.tree_eq, h'.tree_eq]
  path_eq := by rw [h'.path_eq, h.path_eq, List.append_assoc]
  holds := h'.holds

/-- The same way for a narrower rule and a search that finds what has it. -/
theorem Leads.restrict {find find' : Site → Option Site} {build : Tree → Tree} {path : List Nat}
    {P Q R : Tree → Prop} {s c : Site} (h : Leads find build path P Q s c)
    (hR : ∀ {t}, R t → Q t) (hc : R c.tree)
    (hfind : ∀ {s c : Site}, P s.tree → find s = some c → R c.tree → find' s = some c) :
    Leads find' build path P R s c where
  spot := h.spot
  keeps ht := h.keeps (hR ht)
  tokens := h.tokens
  found above ht := hfind (h.keeps (hR ht)) (h.found above (hR ht)) ht
  tree_eq := h.tree_eq
  path_eq := h.path_eq
  holds := hc

theorem Leads.child {p : Tree → Bool} {P Q : Tree → Prop} {kind : NodeKind} {s c : Site}
    {left right : List Tree} (htree : s.tree = .node kind (left ++ c.tree :: right))
    (hleft : ∀ t ∈ left, p t = false) (hpath : c.path = s.path ++ [left.length])
    (hp : ∀ {t}, Q t → p t = true) (hc : Q c.tree)
    (hkeeps : ∀ {t}, Q t → P (.node kind (left ++ t :: right))) :
    Leads (fun s => s.child? p) (fun t => .node kind (left ++ t :: right)) [left.length] P Q
      s c where
  spot := Spot.here.child kind left right
  keeps := hkeeps
  tokens := ⟨Tree.tokensList left, Tree.tokensList right, fun t => by simp⟩
  found above ht := Site.child?_eq_some.2 ⟨left, right, rfl, hleft, hp ht, rfl⟩
  tree_eq := htree
  path_eq := hpath
  holds := hc

/-- A place of a manifest, found by `find`, at which anything with `P` may stand as far as its
tokens are cut like those that stood there. -/
structure Place (find : Tree → Option Site) (around : Tree → Tree) (path : List Nat)
    (P : Tree → Prop) : Prop where
  spot : Spot around path
  tokens : ∃ before after, ∀ t, (around t).tokens = before ++ t.tokens ++ after
  faithful : ∀ {old new : Tree}, P old → P new → Relexes old.tokens new.tokens →
    Faithful (around old) → Faithful (around new)
  found : ∀ {t : Tree}, P t → find (around t) = some ⟨path, t⟩

theorem Place.inside {find : Tree → Option Site} {find' : Site → Option Site}
    {around build : Tree → Tree} {path path' : List Nat} {P Q : Tree → Prop}
    (h : Place find around path P) (h' : Slot find' build path' P Q) :
    Place (fun root => (find root).bind find') (fun t => around (build t)) (path ++ path') Q where
  spot := h.spot.inside h'.spot
  tokens := exists_tokens_inside h.tokens h'.tokens
  faithful hold hnew hrelexes := h.faithful (h'.keeps hold) (h'.keeps hnew) (h'.relexes hrelexes)
  found ht := by rw [h.found (h'.keeps ht), Option.bind_some, h'.found _ ht]

/-- A faithful tree with `t` at a place for what has `P`. -/
structure Filled (around : Tree → Tree) (P : Tree → Prop) (root t : Tree) : Prop where
  tree_eq : root = around t
  holds : P t
  faithful : Faithful root

section Filled

variable {find : Tree → Option Site} {find' : Site → Option Site} {around build : Tree → Tree}
  {path path' : List Nat} {P Q : Tree → Prop} {root t : Tree}

theorem Filled.found (h : Filled around P root t) (hplace : Place find around path P) :
    find root = some ⟨path, t⟩ := by
  rw [h.tree_eq, hplace.found h.holds]

theorem Filled.lexed (h : Filled around P root t) (hplace : Place find around path P) :
    ∃ rest, Lexed t.tokens rest := by
  obtain ⟨_, _, _, hlexed⟩ := faithful_iff.1 h.faithful
  obtain ⟨before, after, htokens⟩ := hplace.tokens
  rw [h.tree_eq, htokens] at hlexed
  exact lexed_middle hlexed

/-- What is inside of what fills a place fills a place of its own. -/
theorem Filled.inside {s c : Site} (h : Filled around P root s.tree)
    (hleads : Leads find' build path' P Q s c) :
    Filled (fun t => around (build t)) Q root c.tree where
  tree_eq := by rw [h.tree_eq, hleads.tree_eq]
  holds := hleads.holds
  faithful := h.faithful

theorem Filled.lexed_inside {s c : Site} (h : Filled around P root s.tree)
    (hplace : Place find around path P) (hleads : Leads find' build path' P Q s c) :
    ∃ rest, Lexed c.tree.tokens rest :=
  (h.inside hleads).lexed (hplace.inside hleads.toSlot)

theorem Filled.outside (h : Filled (fun t => around (build t)) Q root t)
    (hslot : Slot find' build path' P Q) : Filled around P root (build t) where
  tree_eq := h.tree_eq
  holds := hslot.keeps h.holds
  faithful := h.faithful

theorem Filled.set {new : Tree} (h : Filled around P root t) (hplace : Place find around path P)
    (hnew : P new) (hrelexes : Relexes t.tokens new.tokens) :
    Filled around P (root.set path new) new := by
  have hset : root.set path new = around new := by
    rw [h.tree_eq]
    exact hplace.spot.set t new
  refine ⟨hset, hnew, ?_⟩
  rw [hset]
  exact hplace.faithful h.holds hnew hrelexes (h.tree_eq ▸ h.faithful)

end Filled

end PackageManifest.Proofs
