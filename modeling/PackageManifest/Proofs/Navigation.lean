import PackageManifest.Addition
import PackageManifest.Proofs.Faithful

/-!
# Finding one's way in a manifest

What is looked up in a manifest can be replaced by something of its kind and is then found again at
the same path. From the root this leads to the call of `Package`, from a call to the value of an
argument, and from an array to the call that is its first element.
-/

namespace PackageManifest.Proofs

open Source Grammar Lexing Edits

def besides (call : Tree) : List Tree := call.children.filter fun c => !c.isNode .argumentList

structure IsCall (budget : Nat) (others : List Tree) (t : Tree) : Prop where
  operand : Operand (budget + 1) t
  isNode : t.isNode .callExpr = true
  others : besides t = others

theorem IsCall.isExpr {budget : Nat} {others : List Tree} {t : Tree} (h : IsCall budget others t) :
    t.isExpr = true := Chain.isExpr h.operand

theorem expr?_besides (call : Tree) : call.expr? = (besides call).find? Tree.isExpr := by
  rw [besides, List.find?_filter, Tree.expr?]
  congr 1
  funext t
  cases t with
  | token u => rfl
  | node k cs => cases k <;> rfl

/-! ## The arguments of a call -/

section Arguments

variable {budget : Nat} {others : List Tree} {call : Site}

theorem argumentList_leads {list : Site} (hcall : IsCall budget others call.tree)
    (h : call.argumentList? = some list) :
    ∃ build path, Leads Site.argumentList? build path (IsCall budget others)
        (Arguments (Operand budget) .lParen .rParen) call list ∧
      ∀ t, Arguments (Operand budget) .lParen .rParen t →
        fields (build t) = t.listArguments.map field := by
  obtain ⟨left, right, htree, hleft, hnode, hpath⟩ := Site.child?_split hcall.isNode h
  have hchain := hcall.operand
  rw [htree] at hchain
  obtain ⟨hargs, hfill⟩ := Chain.arguments hchain hnode
  have hleads : Leads Site.argumentList? (fun t => .node .callExpr (left ++ t :: right))
      [left.length] (IsCall budget others) (Arguments (Operand budget) .lParen .rParen)
      call list := by
    refine .child htree hleft hpath (fun ht => ht.isNode) hargs fun {t} ht => ⟨hfill t ht, rfl, ?_⟩
    rw [← hcall.others, htree]
    simp [besides, hnode, ht.isNode]
  exact ⟨_, _, hleads, fun t ht => fields_of_argumentList? (hleads.found [] ht)⟩

theorem value_leads {kind : NodeKind} {separated : Bool} {e value : Site}
    (he : Element (Operand budget) kind separated e.tree) (h : e.expr? = some value) :
    ∃ build path, Leads Site.expr? build path
        (fun t => Element (Operand budget) kind separated t ∧ t.label? = e.tree.label?)
        (Sequence (Operand budget)) e value ∧
      ∀ t, Sequence (Operand budget) t → (build t).expr? = some t := by
  obtain ⟨left, right, htree, hleft, hvalue, hpath⟩ := Site.child?_split he.isNode h
  rw [htree] at he
  have hnode := Tree.token?_of_isExpr hvalue
  have hleads : Leads Site.expr? (fun t => .node kind (left ++ t :: right)) [left.length]
      (fun t => Element (Operand budget) kind separated t ∧ t.label? = e.tree.label?)
      (Sequence (Operand budget)) e value := by
    refine .child htree hleft hpath (fun ht => ht.isExpr) (he.around hnode).1
      fun {t} ht => ⟨he.value hnode t ht, ?_⟩
    rw [htree, he.label?_eq hvalue ht.isExpr, he.label?_eq hvalue hvalue]
  refine ⟨_, _, hleads, fun t ht => ?_⟩
  have hfound := Site.child?_map ⟨[], .node kind (left ++ t :: right)⟩ Tree.isExpr
  rw [show Site.child? _ _ = _ from hleads.found [] ht] at hfound
  exact hfound.symm

theorem argumentValue_leads {label : List Char} {value : Site}
    (hcall : IsCall budget others call.tree) (h : call.argumentValue? label = some value) :
    ∃ build path, Leads (fun s => s.argumentValue? label) build path (IsCall budget others)
        (Sequence (Operand budget)) call value ∧
      ∀ t, Sequence (Operand budget) t →
        fields (build t) = setField label t (fields call.tree) := by
  obtain ⟨a, ha, hvalue⟩ := Option.bind_eq_some_iff.1 h
  rw [Site.argument?_eq] at ha
  obtain ⟨list, hlist, ha⟩ := Option.bind_eq_some_iff.1 ha
  obtain ⟨build, path, hlists, hfields⟩ := argumentList_leads hcall hlist
  obtain ⟨left, right, htree, hleft, hargument, hpath⟩ :=
    Site.child?_split hlists.holds.isNode ha
  obtain ⟨hnode, hlabel⟩ := Bool.and_eq_true_iff.1 hargument
  have hlabel : a.tree.label? = some label := beq_iff_eq.1 hlabel
  have hargs := hlists.holds
  rw [htree] at hargs
  obtain ⟨separated, helement, hfill⟩ := Delimited.item hargs hnode
  obtain ⟨inner, innerPath, hvalues, hexpr⟩ := value_leads helement hvalue
  have harguments : Leads (fun s => s.child? fun t => t.isNode .argument && t.hasLabel label)
      (fun t => .node .argumentList (left ++ t :: right)) [left.length]
      (Arguments (Operand budget) .lParen .rParen)
      (fun t => Element (Operand budget) .argument separated t ∧ t.label? = a.tree.label?)
      list a := by
    refine .child htree hleft hpath (fun {t} ht => ?_) ⟨helement, rfl⟩ fun ht => hfill _ ht.1
    rw [ht.1.isNode, Tree.hasLabel, ht.2, hlabel, beq_self_eq_true, Bool.and_self]
  have hall := (hlists.inside harguments).inside hvalues
  have hfind : (fun s : Site => s.argumentValue? label) = fun s => ((s.argumentList?.bind
      fun list => list.child? fun t => t.isNode .argument && t.hasLabel label).bind
        Site.expr?) := by
    funext s
    rw [Site.argumentValue?, Site.argument?_eq]
  rw [← hfind] at hall
  refine ⟨_, _, hall, fun t ht => ?_⟩
  have hfield : field (inner t) = (some label, some t) := by
    rw [field, (hvalues.keeps ht).2, hlabel, hexpr t ht]
  have hbefore : ∀ g ∈ (left.filter (Tree.isNode .argument)).map field,
      (g.1 == some label) = false := by
    intro g hg
    obtain ⟨u, hu, rfl⟩ := List.mem_map.1 hg
    obtain ⟨hmem, hargument⟩ := List.mem_filter.1 hu
    have := hleft u hmem
    rwa [hargument, Bool.true_and] at this
  rw [hfields _ (harguments.keeps (hvalues.keeps ht)), fields_of_argumentList? hlist, htree,
    Tree.listArguments, Tree.children_node, Tree.listArguments, Tree.children_node,
    fields_split (hvalues.keeps ht).1.isNode, fields_split hnode, hfield,
    setField_split t hlabel hbefore]

theorem argumentArray_leads {label : String} {array : Site}
    (hcall : IsCall (budget + 1) others call.tree)
    (h : Addition.argumentArray? call label = some array) :
    ∃ build path, Leads (fun s => Addition.argumentArray? s label) build path
        (IsCall (budget + 1) others) (ArrayLiteral (Operand budget)) call array ∧
      ∀ t, ArrayLiteral (Operand budget) t →
        fields (build t) = setField label.toList t (fields call.tree) := by
  obtain ⟨hvalue, harray⟩ := Option.filter_eq_some_iff.1 h
  obtain ⟨build, path, hleads, hfields⟩ := argumentValue_leads hcall hvalue
  refine ⟨build, path, ?_, fun t ht => hfields t ht.sequence⟩
  refine hleads.restrict (fun ht => ht.sequence) (hleads.holds.arrayLiteral harray) ?_
  intro s c _ hfind hc
  exact Option.filter_eq_some_iff.2 ⟨hfind, hc.isNode⟩

end Arguments

/-! ## The first element of an array -/

def firstCall? (array : Site) : Option Site :=
  if array.tree.isNode .arrayExpr then
    (array.elements.head?.bind Site.expr?).filter fun target => target.tree.isNode .callExpr
  else none

theorem firstTarget?_eq (tree : Tree) :
    Addition.firstTarget? tree = (Addition.packageCall? tree).bind fun call =>
      (Addition.argumentArray? call Addition.targetsLabel).bind firstCall? := by
  rw [Addition.firstTarget?, Addition.targets?]
  cases Addition.packageCall? tree with
  | none => rfl
  | some call =>
    rw [Option.bind_some, Option.bind_some, Addition.argumentArray?]
    cases call.argumentValue? Addition.targetsLabel.toList with
    | none => rfl
    | some targets =>
      by_cases harray : targets.tree.isNode .arrayExpr = true
      · simp [Option.filter, firstCall?, harray]
      · simp [Option.filter, harray]

theorem firstCall_leads {budget : Nat} {array target : Site}
    (harray : ArrayLiteral (Operand (budget + 1)) array.tree) (h : firstCall? array = some target) :
    ∃ build path rest, Leads firstCall? build path (ArrayLiteral (Operand (budget + 1)))
        (IsCall budget (besides target.tree)) array target ∧
      ∀ t, IsCall budget (besides target.tree) t → (build t).elementExprs = t :: rest := by
  rw [firstCall?, if_pos harray.isNode, Site.head?_elements] at h
  obtain ⟨h, hcall⟩ := Option.filter_eq_some_iff.1 h
  obtain ⟨e, he, htarget⟩ := Option.bind_eq_some_iff.1 h
  obtain ⟨left, right, htree, hleft, hnode, hpath⟩ := Site.child?_split harray.isNode he
  rw [htree] at harray
  obtain ⟨separated, helement, hfill⟩ := Delimited.item harray hnode
  obtain ⟨inner, innerPath, hvalues, hexpr⟩ := value_leads helement htarget
  have helements : Leads (fun s => s.child? (Tree.isNode .arrayElement))
      (fun t => .node .arrayExpr (left ++ t :: right)) [left.length]
      (ArrayLiteral (Operand (budget + 1)))
      (fun t => Element (Operand (budget + 1)) .arrayElement separated t ∧
        t.label? = e.tree.label?) array e :=
    .child htree hleft hpath (fun ht => ht.1.isNode) ⟨helement, rfl⟩ fun ht => hfill _ ht.1
  have htarget : IsCall budget (besides target.tree) target.tree :=
    ⟨hvalues.holds.operand hcall (by decide), hcall, rfl⟩
  refine ⟨_, _, (Source.Tree.node .arrayExpr right).elementExprs,
    (helements.inside hvalues).restrict (fun ht => .single ht.operand) htarget ?_, ?_⟩
  · intro s c hs hfind hc
    rw [firstCall?, if_pos hs.isNode, Site.head?_elements]
    exact Option.filter_eq_some_iff.2 ⟨hfind, hc.isNode⟩
  · intro t ht
    have hsequence : Sequence (Operand (budget + 1)) t := .single ht.operand
    rw [List.append_cons, elementExprs_append, elementExprs_append, elementExprs_eq_nil hleft,
      elementExprs_single (hvalues.keeps hsequence).1.isNode, hexpr t hsequence]
    rfl

/-! ## The call of `Package` -/

theorem isPackageCall_of_besides {old new : Tree} (hold : old.isPackageCall = true)
    (hnode : new.isNode .callExpr = true) (hothers : besides new = besides old) :
    new.isPackageCall = true := by
  rw [Tree.isPackageCall, Bool.and_eq_true] at hold ⊢
  rw [expr?_besides, hothers, ← expr?_besides]
  exact ⟨hnode, hold.2⟩

theorem binding_expr? {b : Binding} {value : Tree} {more : List Token} (h : b.Binds value more)
    {t : Tree} (ht : t.isExpr = true) (path : List Nat) :
    (⟨path, b.tree t⟩ : Site).expr? =
        some ⟨path ++ [(b.front ++ .token b.sign :: leaves b.blank).length], t⟩ ∧
      (b.tree t).expr? = some t := by
  have hfind : (⟨path, b.tree t⟩ : Site).expr? =
      some ⟨path ++ [(b.front ++ .token b.sign :: leaves b.blank).length], t⟩ := by
    refine Site.child?_eq_some.2 ⟨_, leaves b.last, by simp [Binding.tree, Binding.children],
      fun u hu => ?_, ht, rfl⟩
    rcases List.mem_append.1 hu with hu | hu
    · exact (h.noExpr u hu).isExpr
    · have hu : u ∈ leaves (b.sign :: b.blank) := hu
      obtain ⟨v, _, rfl⟩ := Tree.eq_token_of_mem_leaves hu
      rfl
  refine ⟨hfind, ?_⟩
  have hmap := Site.child?_map ⟨path, b.tree t⟩ Tree.isExpr
  rw [show Site.child? _ _ = _ from hfind] at hmap
  exact hmap.symm

/-- The call of `Package` can be replaced by another call of it. -/
theorem packageCall_place {root : Tree} {call : Site} (hroot : Faithful root)
    (h : Addition.packageCall? root = some call) :
    ∃ around, Filled around (IsCall 255 (besides call.tree)) root call.tree ∧
      Place Addition.packageCall? around call.path (IsCall 255 (besides call.tree)) := by
  obtain ⟨children, hsource, hitems, hlexed⟩ := faithful_iff.1 hroot
  obtain ⟨binding, hbinding, hcall⟩ := Option.bind_eq_some_iff.1 h
  obtain ⟨left, right, hsplit, hleft, hpackage, hpath⟩ := Site.child?_eq_some.1 hbinding
  have hchildren : children = left ++ binding.tree :: right := by
    rw [← hsplit, hsource]
    rfl
  rw [Tree.isPackageBinding, Bool.and_eq_true] at hpackage
  rw [hchildren] at hitems
  obtain ⟨b, value, htree, hbinds, hagain⟩ := items_rebind hitems hpackage.1
  obtain ⟨path, tree⟩ := binding
  simp only at htree hpath hpackage hchildren hsplit
  subst htree
  have hvalue : value.isExpr = true := hbinds.expression.isExpr
  rw [(binding_expr? hbinds hvalue path).1] at hcall
  obtain rfl := Option.some.inj hcall
  rw [(binding_expr? hbinds hvalue path).2] at hpackage
  have hpackage : value.isPackageCall = true := hpackage.2
  have hnode : value.isNode .callExpr = true := (Bool.and_eq_true_iff.1 hpackage).1
  have hkeeps {t : Tree} (ht : IsCall 255 (besides value) t) :
      (b.tree t).isPackageBinding = true := by
    have hcall := isPackageCall_of_besides hpackage ht.isNode ht.others
    rw [Tree.isPackageBinding, (binding_expr? hbinds ht.isExpr path).2, Option.map_some, hcall]
    rfl
  have htokens (t : Tree) : (Source.Tree.node .sourceFile (left ++ b.tree t :: right)).tokens =
      (Tree.tokensList left ++ Tree.tokensList b.front ++ b.sign :: b.blank) ++ t.tokens ++
        (b.last ++ Tree.tokensList right) := by
    simp [Binding.tree, Binding.children]
  refine ⟨fun t => .node .sourceFile (left ++ b.tree t :: right), ⟨by rw [hsource, hchildren],
    ⟨hbinds.expression.operand hnode (by decide), hnode, rfl⟩, hroot⟩, ?_, ⟨_, _, htokens⟩, ?_, ?_⟩
  · have hb : b.tree = fun t => .node .variableDecl
        ((b.front ++ .token b.sign :: leaves b.blank) ++ t :: leaves b.last) := by
      funext t
      simp [Binding.tree, Binding.children]
    rw [hpath, hb]
    exact (Spot.here.child .sourceFile left right).inside (Spot.here.child .variableDecl _ _)
  · intro old new hold hnew hrelexes hfaithful
    obtain ⟨_, _, _, hlexed⟩ := faithful_iff.1 hfaithful
    have hexpr : Expression new := .single hnew.operand
    refine faithful_iff.2 ⟨_, rfl, (hagain hexpr).eq_ok, ?_⟩
    rw [htokens] at hlexed ⊢
    exact hrelexes _ _ _ hlexed
  · intro t ht
    have hfind : Site.child? ⟨[], .node .sourceFile (left ++ b.tree t :: right)⟩
        Tree.isPackageBinding = some ⟨path, b.tree t⟩ :=
      Site.child?_eq_some.2 ⟨left, right, rfl, hleft, hkeeps ht, hpath⟩
    rw [Addition.packageCall?, Site.packageCall?, Tree.site, hfind, Option.bind_some,
      (binding_expr? hbinds ht.isExpr path).1]

end PackageManifest.Proofs
