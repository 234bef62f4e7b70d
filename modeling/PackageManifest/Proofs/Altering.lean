import PackageManifest.Proofs.Bare
import PackageManifest.Proofs.Navigation

/-!
# Altering what a search finds

A search goes from child to child, each time to the first one that passes a test. `alter` changes
the first such child of a tree. If the tests do not see trivia, it makes no difference whether the
trivia is removed before or after the change (`Traces.alters`).
-/

namespace PackageManifest.Proofs

open Source Grammar Edits

def alterFirst (p : Tree → Bool) (f : Tree → Tree) : List Tree → List Tree
  | [] => []
  | t :: ts => if p t then f t :: ts else t :: alterFirst p f ts

def alter (p : Tree → Bool) (f : Tree → Tree) : Tree → Tree
  | .token t => .token t
  | .node kind children => .node kind (alterFirst p f children)

theorem alterFirst_split {p : Tree → Bool} {left right : List Tree} {c : Tree} (f : Tree → Tree)
    (hleft : ∀ t ∈ left, p t = false) (hc : p c = true) :
    alterFirst p f (left ++ c :: right) = left ++ f c :: right := by
  induction left with
  | nil => rw [List.nil_append, alterFirst, if_pos hc, List.nil_append]
  | cons t left ih =>
    rw [List.cons_append, alterFirst, hleft t (List.mem_cons_self ..), if_neg (by decide),
      ih fun u hu => hleft u (List.mem_cons_of_mem _ hu), List.cons_append]

/-! ## The way of a search -/

/-- The way from a site to one inside it, with what stands around the end of the way, and with the
change `g` of what the trees without trivia say there. -/
structure Traces (g : (Tree → Tree) → Tree → Tree) (build : Tree → Tree) (path : List Nat)
    (s c : Site) : Prop where
  spot : Spot build path
  tree_eq : s.tree = build c.tree
  path_eq : c.path = s.path ++ path
  kind_eq : ∀ new, (build new).kind = s.tree.kind
  solid : c.tree.isTrivia = false
  alters : ∀ {f : Tree → Tree} {new : Tree}, new.isTrivia = false → f c.tree.bare = new.bare →
    g f s.tree.bare = (build new).bare

namespace Traces

variable {g g' : (Tree → Tree) → Tree → Tree} {build build' : Tree → Tree} {path path' : List Nat}
  {s c e : Site}

theorem isTrivia_build (h : Traces g build path s c) (hs : s.tree.isTrivia = false) (new : Tree) :
    (build new).isTrivia = false := by
  rw [Tree.isTrivia, h.kind_eq new]
  exact hs

theorem inside (h : Traces g build path s c) (h' : Traces g' build' path' c e) :
    Traces (fun f => g (g' f)) (fun t => build (build' t)) (path ++ path') s e where
  spot := h.spot.inside h'.spot
  tree_eq := by rw [h.tree_eq, h'.tree_eq]
  path_eq := by rw [h'.path_eq, h.path_eq, List.append_assoc]
  kind_eq new := h.kind_eq _
  solid := h'.solid
  alters hnew hf := h.alters (h'.isTrivia_build h.solid _) (h'.alters hnew hf)

theorem child {p : Tree → Bool} (hp : ∀ t ∈ s.tree.children, Tree.Blind p t)
    (h : s.child? p = some c) : ∃ build path, Traces (alter p) build path s c := by
  obtain ⟨kind, left, right, htree, hleft, hc, hpath⟩ := Site.child?_node h
  have hblind {t : Tree} (ht : t ∈ left ∨ t = c.tree) : Tree.Blind p t := by
    apply hp
    rw [htree, Tree.children_node]
    rcases ht with ht | rfl
    · exact List.mem_append_left _ ht
    · simp
  have hsolid : c.tree.isTrivia = false := by
    cases htrivia : c.tree.isTrivia with
    | false => rfl
    | true =>
      rw [(hblind (.inr rfl)).1 htrivia] at hc
      cases hc
  refine ⟨fun t => .node kind (left ++ t :: right), [left.length], Spot.here.child kind left right,
    htree, hpath, fun new => by rw [htree]; rfl, hsolid, fun {f new} hnew hf => ?_⟩
  -- What is before the child does not have `p` without its trivia either.
  have hbefore : ∀ t ∈ Tree.bareList left, p t = false := by
    intro t ht
    rw [Tree.bareList_eq] at ht
    obtain ⟨u, hu, rfl⟩ := List.mem_map.1 ht
    have hu := (List.mem_filter.1 hu).1
    rw [(hblind (.inl hu)).2, hleft u hu]
  rw [htree, Tree.bare_node, Tree.bareList_append, Tree.bareList_cons hsolid, alter,
    alterFirst_split f hbefore ((hblind (.inr rfl)).2.trans hc), hf, Tree.bare_node,
    Tree.bareList_append, Tree.bareList_cons hnew]

/-- Another description of the same way has the same surroundings. -/
theorem build_eq {find : Site → Option Site} {P Q : Tree → Prop} (h : Traces g build path s c)
    (h' : Leads find build' path' P Q s c) (new : Tree) : build' new = build new := by
  have hpath : path' = path := List.append_cancel_left (h'.path_eq.symm.trans h.path_eq)
  rw [← h'.set_eq new, hpath, h.tree_eq, h.spot.set]

end Traces

/-! ## The arguments of a call without trivia -/

def isArgument (label : List Char) (t : Tree) : Bool := t.isNode .argument && t.hasLabel label

theorem element_label?_bare {P : Tree → Prop} (hP : ∀ {t}, Sequence P t → t.isExpr = true)
    {kind : NodeKind} {separated : Bool} {e : Tree} (h : Element P kind separated e) :
    e.bare.label? = e.label? := by
  have of_first {t : Tree} {u : Token} {us : List Token} (hu : u.isTrivia = false)
      (ht : t.isTrivia = false) (htokens : t.tokens = u :: us) : t.bare.label? = t.label? := by
    rw [Tree.label?, Tree.label?, Tree.hasColon_bare, Tree.firstToken?, Tree.firstToken?,
      Tree.tokens_bare t ht, htokens, List.filter_cons_of_pos (by simp [hu])]
    rfl
  have of_none {t : Tree} (ht : t.hasColon = false) : t.bare.label? = t.label? := by
    rw [Tree.label?, Tree.label?, Tree.hasColon_bare, ht]
    rfl
  have of_name {name : Token} (hname : name.kind.isNameLike = true) : name.isTrivia = false := by
    rw [Token.isTrivia]
    cases hkind : name.kind <;> rw [hkind] at hname <;> first | rfl | cases hname
  cases h with
  | @bare label value hlabel hvalue =>
    cases hlabel with
    | none =>
      refine of_none ?_
      simp [Tree.hasColon, Tree.tokenOf?, leaves, Tree.token?_of_isExpr (hP hvalue)]
    | some _ hname _ _ _ => exact of_first (of_name hname) rfl rfl
  | @separated label before value comma hlabel hvalue hbefore hcomma =>
    cases hlabel with
    | none =>
      refine of_none ?_
      have hnone : before.find? (fun u => u.kind == .colon) = none := by
        rw [List.find?_eq_none]
        intro u hu hkind
        have htrivia := hbefore u hu
        rw [Token.isTrivia, beq_iff_eq.1 hkind] at htrivia
        cases htrivia
      simp [Tree.hasColon, Tree.tokenOf?, leaves, Tree.token?_of_isExpr (hP hvalue),
        List.filterMap_append, hcomma, hnone]
    | some _ hname _ _ _ => exact of_first (of_name hname) rfl rfl

section Arguments

variable {budget : Nat} {others : List Tree}

theorem blind_isArgument {list : Tree} {opening close : TokenKind}
    (h : Arguments (Operand budget) opening close list) (label : List Char) :
    ∀ t ∈ list.children, Tree.Blind (isArgument label) t := by
  intro t ht
  cases hnode : t.isNode .argument with
  | false =>
    have hnone : isArgument label t = false := by rw [isArgument, hnode, Bool.false_and]
    exact ⟨fun _ => hnone, by rw [hnone, isArgument, Tree.isNode_bare, hnode, Bool.false_and]⟩
  | true =>
    obtain ⟨left, right, hsplit⟩ := List.append_of_mem ht
    have htree := Tree.eq_node_of_isNode h.isNode
    rw [hsplit] at htree
    rw [htree] at h
    obtain ⟨separated, helement, _⟩ := Delimited.item h hnode
    refine ⟨fun htrivia => ?_, ?_⟩
    · rw [Tree.isTrivia_of_token? (Tree.token?_of_isNode hnode)] at htrivia
      cases htrivia
    · rw [isArgument, isArgument, Tree.isNode_bare, Tree.hasLabel, Tree.hasLabel,
        element_label?_bare (fun ht => ht.isExpr) helement]

def bareField (f : Field) : Field := (f.1, f.2.map Tree.bare)

theorem IsCall.arguments {call list : Tree} (hcall : IsCall budget others call)
    (h : call.argumentList? = some list) : Arguments (Operand budget) .lParen .rParen list := by
  obtain ⟨hnode, left, right, hsplit, _⟩ := List.find?_eq_some_iff_append.1 h
  have hchain := hcall.operand
  rw [Tree.eq_node_of_isNode hcall.isNode, hsplit] at hchain
  exact (Chain.arguments hchain hnode).1

theorem element_of_mem_arguments {call a : Tree} (hcall : IsCall budget others call)
    (ha : a ∈ call.arguments) : ∃ separated, Element (Operand budget) .argument separated a := by
  rw [Tree.arguments_eq] at ha
  cases hlist : call.argumentList? with
  | none =>
    rw [hlist] at ha
    cases ha
  | some list =>
    rw [hlist] at ha
    obtain ⟨hmem, hnode⟩ := List.mem_filter.1 ha
    obtain ⟨left, right, hsplit⟩ := List.append_of_mem hmem
    have hargs := hcall.arguments hlist
    rw [Tree.eq_node_of_isNode hargs.isNode, hsplit] at hargs
    obtain ⟨separated, helement, _⟩ := Delimited.item hargs hnode
    exact ⟨separated, helement⟩

theorem fields_bare {call : Tree} (hcall : IsCall budget others call) :
    fields call.bare = (fields call).map bareField := by
  rw [fields, fields, Tree.arguments_bare, List.map_map, List.map_map]
  refine List.map_congr_left fun a ha => ?_
  obtain ⟨separated, helement⟩ := element_of_mem_arguments hcall ha
  rw [Function.comp_apply, Function.comp_apply, field, Tree.expr?_bare,
    element_label?_bare (fun ht => ht.isExpr) helement]
  rfl

theorem lookup?_bareField (label : List Char) (fs : List Field) :
    lookup? label (fs.map bareField) = (lookup? label fs).map bareField := by
  rw [lookup?, lookup?, List.find?_map]
  rfl

theorem anchorLabel?_bareField (candidates : List String) (fs : List Field) :
    anchorLabel? candidates (fs.map bareField) = anchorLabel? candidates fs := by
  simp only [anchorLabel?, lookup?_bareField, Option.isSome_map]

theorem stringArgument?_bare {call : Tree} (hcall : IsCall budget others call)
    (label : List Char) : call.bare.stringArgument? label = call.stringArgument? label := by
  have hvalue : call.bare.argumentValue? label = (call.argumentValue? label).map Tree.bare := by
    rw [argumentValue?_field, argumentValue?_field, fields_bare hcall, lookup?_bareField]
    cases lookup? label (fields call) <;> rfl
  rw [Tree.stringArgument?, Tree.stringArgument?, hvalue]
  cases call.argumentValue? label with
  | none => rfl
  | some value => simp only [Option.map_some, Tree.isNode_bare, Tree.stringValue?_bare]

theorem isCall_of_sequence {e : Tree} (h : Sequence (Operand budget) e)
    (hnode : e.isNode .callExpr = true) : ∃ inner, IsCall inner (besides e) e := by
  cases budget with
  | zero => exact (h.operand hnode (by decide)).elim
  | succ budget => exact ⟨budget, h.operand hnode (by decide), hnode, rfl⟩

def alterValue (label : List Char) (f : Tree → Tree) : Tree → Tree :=
  alter (Tree.isNode .argumentList) (alter (isArgument label) (alter Tree.isExpr f))

theorem argumentValue_traces {call value : Site} {label : List Char}
    (hcall : IsCall budget others call.tree) (h : call.argumentValue? label = some value) :
    ∃ list outer p inner q, call.argumentList? = some list ∧
      Traces (alter (Tree.isNode .argumentList)) outer p call list ∧
      Traces (fun f => alter (isArgument label) (alter Tree.isExpr f)) inner q list value := by
  obtain ⟨a, ha, hvalue⟩ := Option.bind_eq_some_iff.1 h
  rw [Site.argument?_eq] at ha
  obtain ⟨list, hlist, ha⟩ := Option.bind_eq_some_iff.1 ha
  have hmap := call.child?_map (Tree.isNode .argumentList)
  rw [show call.child? _ = _ from hlist] at hmap
  obtain ⟨outer, p, houter⟩ := Traces.child (fun t _ => Tree.blind_isNode _ t) hlist
  have hblind := blind_isArgument (hcall.arguments hmap.symm) label
  obtain ⟨middle, m, hmiddle⟩ := Traces.child hblind ha
  obtain ⟨inner, q, hinner⟩ := Traces.child (fun t _ => Tree.blind_isExpr t) hvalue
  exact ⟨list, outer, p, _, _, hlist, houter, hmiddle.inside hinner⟩

end Arguments

/-! ## Other searches -/

theorem firstCall_traces {array target : Site} (h : firstCall? array = some target) :
    ∃ build path, Traces (fun f => alter (Tree.isNode .arrayElement) (alter Tree.isExpr f))
      build path array target := by
  obtain ⟨_, h⟩ := Option.ite_none_right_eq_some.1 h
  obtain ⟨h, _⟩ := Option.filter_eq_some_iff.1 h
  obtain ⟨e, he, htarget⟩ := Option.bind_eq_some_iff.1 h
  rw [Site.head?_elements] at he
  obtain ⟨outer, p, houter⟩ := Traces.child (fun t _ => Tree.blind_isNode _ t) he
  obtain ⟨inner, q, hinner⟩ := Traces.child (fun t _ => Tree.blind_isExpr t) htarget
  exact ⟨_, _, houter.inside hinner⟩

theorem packageCall_traces {root : Tree} {call : Site}
    (h : Addition.packageCall? root = some call) :
    ∃ build, Traces (fun f => alter Tree.isPackageBinding (alter Tree.isExpr f)) build call.path
      root.site call := by
  obtain ⟨binding, hbinding, hcall⟩ := Option.bind_eq_some_iff.1 h
  obtain ⟨outer, p, houter⟩ := Traces.child (fun t _ => Tree.blind_isPackageBinding t) hbinding
  obtain ⟨inner, q, hinner⟩ := Traces.child (fun t _ => Tree.blind_isExpr t) hcall
  have hall := houter.inside hinner
  have hpath : call.path = p ++ q := hall.path_eq
  rw [← hpath] at hall
  exact ⟨_, hall⟩

theorem packageCall?_bare (root : Tree) :
    (Addition.packageCall? root.bare).map Site.tree =
      (Addition.packageCall? root).map fun call => call.tree.bare := by
  have hbinding (root : Tree) : (Addition.packageCall? root).map Site.tree =
      (root.children.find? Tree.isPackageBinding).bind Tree.expr? := by
    have hfind := root.site.child?_map Tree.isPackageBinding
    rw [show root.site.tree = root from rfl] at hfind
    rw [Addition.packageCall?, Site.packageCall?, ← hfind]
    cases root.site.child? Tree.isPackageBinding with
    | none => rfl
    | some binding => exact binding.child?_map Tree.isExpr
  have hmap := congrArg (Option.map Tree.bare) (hbinding root)
  rw [Option.map_map] at hmap
  rw [hbinding, Tree.children_bare, Tree.find?_bareList fun t _ => Tree.blind_isPackageBinding t]
  refine Eq.trans ?_ hmap.symm
  cases root.children.find? Tree.isPackageBinding with
  | none => rfl
  | some binding => exact Tree.expr?_bare binding

end PackageManifest.Proofs
