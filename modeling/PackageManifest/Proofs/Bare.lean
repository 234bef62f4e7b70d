import PackageManifest.Proofs.Sites

/-!
# Trees without their trivia

A tree from which all trivia tokens are removed says what the tree says: names, values and elements
are read off tokens and nodes that stay.
-/

namespace PackageManifest.Source.Tree

mutual

/-- The tree without the trivia in it. -/
def bare : Tree → Tree
  | token t => token t
  | node k cs => node k (bareList cs)

def bareList : List Tree → List Tree
  | [] => []
  | c :: cs => if c.isTrivia then bareList cs else c.bare :: bareList cs

end

@[simp] theorem bare_token (t : Token) : (token t).bare = token t := rfl

@[simp] theorem bare_node (k : NodeKind) (cs : List Tree) :
    (node k cs).bare = node k (bareList cs) := rfl

@[simp] theorem bareList_nil : bareList [] = [] := rfl

theorem bareList_cons_of_isTrivia {c : Tree} (h : c.isTrivia = true) (cs : List Tree) :
    bareList (c :: cs) = bareList cs := if_pos h

theorem bareList_cons {c : Tree} (h : c.isTrivia = false) (cs : List Tree) :
    bareList (c :: cs) = c.bare :: bareList cs :=
  if_neg (by rw [h]; decide)

@[simp] theorem bareList_cons_node (k : NodeKind) (cs ds : List Tree) :
    bareList (node k cs :: ds) = (node k cs).bare :: bareList ds := rfl

theorem bareList_eq (cs : List Tree) :
    bareList cs = (cs.filter fun c => !c.isTrivia).map bare := by
  induction cs with
  | nil => rfl
  | cons c cs ih =>
    cases h : c.isTrivia with
    | true => rw [bareList_cons_of_isTrivia h, ih, List.filter_cons_of_neg (by simp [h])]
    | false => rw [bareList_cons h, ih, List.filter_cons_of_pos (by simp [h]), List.map_cons]

@[simp] theorem bareList_append (as bs : List Tree) :
    bareList (as ++ bs) = bareList as ++ bareList bs := by
  simp only [bareList_eq, List.filter_append, List.map_append]

theorem isTrivia_of_token? {t : Tree} (h : t.token? = none) : t.isTrivia = false := by
  cases t with
  | token u => cases h
  | node k cs => rfl

theorem bareList_cons_of_token? {c : Tree} (h : c.token? = none) (cs : List Tree) :
    bareList (c :: cs) = c.bare :: bareList cs := bareList_cons (isTrivia_of_token? h) cs

theorem bareList_leaves (ts : List Token) :
    bareList (leaves ts) = leaves (ts.filter fun t => !t.isTrivia) := by
  rw [bareList_eq, leaves, List.filter_map, List.map_map]
  rfl

theorem bareList_trivia {ts : List Token} (h : ∀ t ∈ ts, t.isTrivia = true) :
    bareList (leaves ts) = [] := by
  have hnone : (ts.filter fun t => !t.isTrivia) = [] := by
    rw [List.filter_eq_nil_iff]
    intro t ht
    simp [h t ht]
  rw [bareList_leaves, hnone]
  rfl

/-! ## Kinds and tokens -/

@[simp] theorem kind_bare (t : Tree) : t.bare.kind = t.kind := by
  cases t <;> rfl

@[simp] theorem isNode_bare (t : Tree) (k : NodeKind) : t.bare.isNode k = t.isNode k := by
  rw [isNode, isNode, kind_bare]

@[simp] theorem isExpr_bare (t : Tree) : t.bare.isExpr = t.isExpr := by
  rw [isExpr, isExpr, kind_bare]

@[simp] theorem isTrivia_bare (t : Tree) : t.bare.isTrivia = t.isTrivia := by
  rw [isTrivia, isTrivia, kind_bare]

theorem children_bare (t : Tree) : t.bare.children = bareList t.children := by
  cases t <;> rfl

mutual

theorem tokens_bare (t : Tree) (h : t.isTrivia = false) :
    t.bare.tokens = t.tokens.filter fun u => !u.isTrivia := by
  cases t with
  | token u =>
    have hu : u.isTrivia = false := h
    simp [hu]
  | node k cs => exact tokensList_bareList cs

theorem tokensList_bareList (cs : List Tree) :
    tokensList (bareList cs) = (tokensList cs).filter fun u => !u.isTrivia := by
  match cs with
  | [] => rfl
  | c :: cs =>
    rw [tokensList_cons, List.filter_append, ← tokensList_bareList cs]
    cases h : c.isTrivia with
    | true =>
      rw [bareList_cons_of_isTrivia h]
      cases c with
      | token u =>
        have hu : u.isTrivia = true := h
        simp [hu]
      | node k ds => cases h
    | false => rw [bareList_cons h, tokensList_cons, tokens_bare c h]

end

theorem filterMap_token?_bareList (cs : List Tree) :
    (bareList cs).filterMap token? = (cs.filterMap token?).filter fun u => !u.isTrivia := by
  induction cs with
  | nil => rfl
  | cons c cs ih =>
    cases c with
    | node k ds =>
      rw [bareList_cons_node, bare_node, List.filterMap_cons, List.filterMap_cons]
      exact ih
    | token u =>
      have hu : (token u).isTrivia = u.isTrivia := rfl
      cases h : u.isTrivia with
      | true => simp [bareList_cons_of_isTrivia (hu.trans h), ih, h]
      | false => simp [bareList_cons (hu.trans h), ih, h]

/-! ## Looking up children -/

/-- A test that holds of no trivia and does not see it. -/
def Blind (p : Tree → Bool) (t : Tree) : Prop :=
  (t.isTrivia = true → p t = false) ∧ p t.bare = p t

theorem blind_isNode (k : NodeKind) (t : Tree) : Blind (isNode k) t := by
  refine ⟨fun h => ?_, isNode_bare t k⟩
  cases t with
  | token u => exact isNode_token u k
  | node l cs => cases h

theorem blind_isExpr (t : Tree) : Blind isExpr t := by
  refine ⟨fun h => ?_, isExpr_bare t⟩
  cases t with
  | token u => rfl
  | node l cs => cases h

theorem filter_bareList {p : Tree → Bool} {cs : List Tree} (h : ∀ c ∈ cs, Blind p c) :
    (bareList cs).filter p = (cs.filter p).map bare := by
  induction cs with
  | nil => rfl
  | cons c cs ih =>
    obtain ⟨htrivia, hbare⟩ := h c (List.mem_cons_self ..)
    have ih := ih fun d hd => h d (List.mem_cons_of_mem _ hd)
    cases hc : c.isTrivia with
    | true =>
      rw [bareList_cons_of_isTrivia hc, ih, List.filter_cons_of_neg (by simp [htrivia hc])]
    | false =>
      rw [bareList_cons hc, List.filter_cons, List.filter_cons, hbare, ih]
      split <;> rfl

theorem find?_bareList {p : Tree → Bool} {cs : List Tree} (h : ∀ c ∈ cs, Blind p c) :
    (bareList cs).find? p = (cs.find? p).map bare := by
  rw [← List.head?_filter, filter_bareList h, ← List.head?_filter, List.head?_map]

theorem any_bareList {p : Tree → Bool} {cs : List Tree} (h : ∀ c ∈ cs, Blind p c) :
    (bareList cs).any p = cs.any p := by
  have hsome (ts : List Tree) : ts.any p = (ts.find? p).isSome := by
    rw [Bool.eq_iff_iff, List.any_eq_true, List.find?_isSome]
  rw [hsome, hsome, find?_bareList h, Option.isSome_map]

@[simp] theorem expr?_bare (t : Tree) : t.bare.expr? = t.expr?.map bare := by
  rw [expr?, children_bare, find?_bareList fun c _ => blind_isExpr c, expr?]

@[simp] theorem argumentList?_bare (t : Tree) :
    t.bare.argumentList? = t.argumentList?.map bare := by
  rw [argumentList?, children_bare, find?_bareList fun c _ => blind_isNode _ c, argumentList?]

@[simp] theorem arguments_bare (t : Tree) : t.bare.arguments = t.arguments.map bare := by
  rw [arguments_eq, arguments_eq, argumentList?_bare]
  cases t.argumentList? with
  | none => rfl
  | some list =>
    simp only [Option.map_some, Option.getD_some, listArguments, children_bare]
    exact filter_bareList fun c _ => blind_isNode _ c

@[simp] theorem elements_bare (t : Tree) : t.bare.elements = t.elements.map bare := by
  rw [elements, children_bare, filter_bareList fun c _ => blind_isNode _ c, elements]

@[simp] theorem elementExprs_bare (t : Tree) : t.bare.elementExprs = t.elementExprs.map bare := by
  simp only [elementExprs, elements_bare, List.filterMap_map, List.map_filterMap, expr?_bare,
    Function.comp_def]

/-! ## Names and texts -/

theorem tokenOf?_bare (t : Tree) {kind : TokenKind} (h : kind.isTrivia = false) :
    t.bare.tokenOf? kind = t.tokenOf? kind := by
  rw [tokenOf?, tokenOf?, children_bare, filterMap_token?_bareList, List.find?_filter]
  congr 1
  funext u
  cases hu : u.kind == kind with
  | false => simp
  | true =>
    have hkind : u.isTrivia = false := by rw [Token.isTrivia, beq_iff_eq.1 hu, h]
    simp [hkind]

@[simp] theorem identName?_bare (t : Tree) : t.bare.identName? = t.identName? := by
  rw [identName?, identName?, tokenOf?_bare t rfl]

@[simp] theorem stringValue?_bare (t : Tree) : t.bare.stringValue? = t.stringValue? := by
  rw [stringValue?, stringValue?, tokenOf?_bare t rfl]

@[simp] theorem hasColon_bare (t : Tree) : t.bare.hasColon = t.hasColon := by
  rw [hasColon, hasColon, tokenOf?_bare t rfl]

@[simp] theorem memberName?_bare (t : Tree) : t.bare.memberName? = t.memberName? := by
  have hdrop (us : List Token) :
      ((us.filter fun u => !u.isTrivia).dropWhile fun u => u.kind != .dot) =
        (us.dropWhile fun u => u.kind != .dot).filter fun u => !u.isTrivia := by
    induction us with
    | nil => rfl
    | cons u us ih =>
      cases hu : u.isTrivia with
      | true =>
        have hdot : (u.kind != .dot) = true := by
          rw [bne_iff_ne]
          intro hdot
          rw [Token.isTrivia, hdot] at hu
          cases hu
        rw [List.filter_cons_of_neg (by simp [hu]), ih, List.dropWhile_cons, if_pos hdot]
      | false =>
        rw [List.filter_cons_of_pos (by simp [hu]), List.dropWhile_cons, List.dropWhile_cons, ih]
        split
        · rfl
        · rw [List.filter_cons_of_pos (by simp [hu])]
  rw [memberName?, memberName?, children_bare, filterMap_token?_bareList, hdrop, List.find?_filter]
  congr 2
  funext u
  rw [Token.isTrivia]
  cases u.kind <;> rfl

@[simp] theorem isMemberCall_bare (name : List Char) (t : Tree) :
    t.bare.isMemberCall name = t.isMemberCall name := by
  rw [isMemberCall, isMemberCall, isNode_bare, expr?_bare]
  cases t.expr? with
  | none => rfl
  | some callee => simp

@[simp] theorem isPackageCall_bare (t : Tree) : t.bare.isPackageCall = t.isPackageCall := by
  rw [isPackageCall, isPackageCall, isNode_bare, expr?_bare]
  cases t.expr? with
  | none => rfl
  | some callee => simp

@[simp] theorem isPackageBinding_bare (t : Tree) :
    t.bare.isPackageBinding = t.isPackageBinding := by
  rw [isPackageBinding, isPackageBinding, isNode_bare, expr?_bare]
  cases t.expr? with
  | none => rfl
  | some value => simp

theorem blind_isPackageBinding (t : Tree) : Blind isPackageBinding t := by
  refine ⟨fun h => ?_, isPackageBinding_bare t⟩
  cases t with
  | token u => rfl
  | node k cs => cases h

end PackageManifest.Source.Tree
