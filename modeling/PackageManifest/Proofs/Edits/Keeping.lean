import PackageManifest.Proofs.Edits.Plain
import PackageManifest.Proofs.Snippets

/-!
# What an edit keeps

An edit keeps the comments and the significant tokens, in their order. One that only inserts keeps
every token; an array that is written anew may lose blanks and line breaks.
-/

namespace PackageManifest.Proofs.Edits

open Source Grammar Lexing Snippets PackageManifest.Edit PackageManifest.Edit.Array

def comments (ts : List Token) : List Token := ts.filter fun t => t.kind.isComment

def significant (ts : List Token) : List Token := ts.filter fun t => !t.isTrivia

@[simp] theorem comments_append (ts us : List Token) :
    comments (ts ++ us) = comments ts ++ comments us := List.filter_append ..

@[simp] theorem significant_append (ts us : List Token) :
    significant (ts ++ us) = significant ts ++ significant us := List.filter_append ..

theorem textOf_sublist {ts us : List Token} (h : ts.Sublist us) :
    (textOf ts).Sublist (textOf us) := by
  induction h with
  | slnil => exact .refl _
  | cons u _ ih => exact ih.trans (List.sublist_append_right _ _)
  | cons_cons u _ ih => exact (List.Sublist.refl u.text).append ih

/-- The tokens `new` keep the comments and the significant tokens of `old`, and unless blanks may be
lost they keep everything. -/
structure Keeps (lossy : Prop) (old new : List Token) : Prop where
  comments : comments new = comments old
  significant : (significant old).Sublist (significant new)
  whole : ¬lossy → old.Sublist new

namespace Keeps

variable {p q : Prop} {old mid new : List Token}

theorem refl (p : Prop) (ts : List Token) : Keeps p ts ts :=
  ⟨rfl, List.Sublist.refl _, fun _ => List.Sublist.refl _⟩

theorem mono (h : Keeps p old new) (hpq : p → q) : Keeps q old new :=
  ⟨h.comments, h.significant, fun hq => h.whole fun hp => hq (hpq hp)⟩

theorem trans (h : Keeps p old mid) (h' : Keeps q mid new) : Keeps (p ∨ q) old new where
  comments := h'.comments.trans h.comments
  significant := h.significant.trans h'.significant
  whole hpq := (h.whole fun hp => hpq (.inl hp)).trans (h'.whole fun hq => hpq (.inr hq))

theorem around (h : Keeps p old new) (before after : List Token) :
    Keeps p (before ++ old ++ after) (before ++ new ++ after) where
  comments := by rw [comments_append, comments_append, comments_append, comments_append, h.comments]
  significant := by
    rw [significant_append, significant_append, significant_append, significant_append]
    exact ((List.Sublist.refl _).append h.significant).append (List.Sublist.refl _)
  whole hp := ((List.Sublist.refl _).append (h.whole hp)).append (List.Sublist.refl _)

theorem of_sublist (h : old.Sublist new) (hcomments : Edits.comments new = Edits.comments old) :
    Keeps p old new :=
  ⟨hcomments, h.filter _, fun _ => h⟩

end Keeps

theorem keeps_insert (before after : List Token) {new : List Token} (hnew : comments new = []) :
    Keeps False (before ++ after) (before ++ new ++ after) := by
  have hsublist : (before ++ after).Sublist (before ++ new ++ after) :=
    (List.sublist_append_left before new).append (List.Sublist.refl after)
  exact .of_sublist hsublist (by simp [hnew])

/-! ## Insertions -/

theorem comments_newLine (layout : Layout) (level : Nat) :
    comments (layout.newLine level) = [] := by
  rw [Layout.newLine, newlineAndIndent, comments]
  split <;> rfl

theorem keeps_withSeparator (e : Tree) : Keeps False e.tokens (withSeparator e).tokens := by
  cases e with
  | token t => exact .refl _ _
  | node kind children =>
    rw [withSeparator]
    split
    · exact .refl _ _
    · have hcomma : comments [⟨.comma, [',']⟩] = [] := rfl
      simpa [commaToken] using keeps_insert (Tree.tokensList children) [] hcomma

theorem keeps_modify (trees : List Tree) (i : Nat) :
    Keeps False (Tree.tokensList trees) (Tree.tokensList (trees.modify i withSeparator)) := by
  induction trees generalizing i with
  | nil =>
    rw [List.modify_nil]
    exact .refl _ _
  | cons t trees ih =>
    cases i with
    | zero => simpa using (keeps_withSeparator t).around [] (Tree.tokensList trees)
    | succ i => simpa using (ih i).around t.tokens []

theorem keeps_insertAfter (trees : List Tree) (i : Nat) {lead : List Token} {n : Tree}
    (hlead : comments lead = []) (hn : comments n.tokens = []) :
    Keeps False (Tree.tokensList trees) (Tree.tokensList (insertAfter trees i lead n)) := by
  have hnew : comments (lead ++ n.tokens) = [] := by
    rw [comments_append, hlead, hn, List.append_nil]
  have hsplit : Tree.tokensList trees =
      Tree.tokensList (trees.take (i + 1)) ++ Tree.tokensList (trees.drop (i + 1)) := by
    rw [← Tree.tokensList_append, List.take_append_drop]
  rw [hsplit, insertAfter]
  split
  · have htail : Tree.tokensList (trees.drop (i + 1)) =
        Tree.tokensList ((trees.drop (i + 1)).takeWhile isInlineTrivia) ++
          Tree.tokensList ((trees.drop (i + 1)).dropWhile isInlineTrivia) := by
      rw [← Tree.tokensList_append, List.takeWhile_append_dropWhile]
    rw [htail, ← List.append_assoc]
    have := keeps_insert (Tree.tokensList (trees.take (i + 1)) ++
      Tree.tokensList ((trees.drop (i + 1)).takeWhile isInlineTrivia))
      (Tree.tokensList ((trees.drop (i + 1)).dropWhile isInlineTrivia)) hnew
    simpa using this
  · have := keeps_insert (Tree.tokensList (trees.take (i + 1)))
      (Tree.tokensList (trees.drop (i + 1))) hnew
    simpa using this

theorem append_keeps (layout : Layout) (level : Nat) {site : Site} {expr : Tree}
    (h : site.tree.isNode .arrayExpr = true) (hexpr : comments expr.tokens = []) :
    Keeps False site.tree.tokens (append layout site expr level).replacement.tokens := by
  have hseparated : Keeps False (Tree.tokensList site.tree.children)
      (Tree.tokensList (separated site.tree.children)) := by
    unfold separated
    split
    · exact .refl _ _
    · exact keeps_modify _ _
  have hnew : comments (Source.Tree.node .arrayElement [expr]).tokens = [] := by simpa using hexpr
  have hinsert := keeps_insertAfter (separated site.tree.children)
    (anchor site.tree.children) (comments_newLine layout level) hnew
  rw [Tree.eq_node_of_isNode h]
  exact (hseparated.trans hinsert).mono (by simp)

theorem insertAfterFirst_keeps (layout : Layout) (root : Tree) {call list : Site} {new value : Tree}
    {candidates : List String} {label : String} {ownLine : Bool}
    (hlist : call.argumentList? = some list) (hnode : list.tree.isNode .argumentList = true)
    (hvalue : ∀ last, comments (Argument.argument label.toList value last).tokens = [])
    (h : Argument.insertAfterFirst layout root call candidates label value ownLine =
      .ok ⟨list, new⟩) :
    Keeps False list.tree.tokens new.tokens := by
  rw [Argument.insertAfterFirst, hlist] at h
  simp only at h
  split at h
  · cases h
  · rename_i i _
    obtain rfl := congrArg Edit.replacement (Except.ok.inj h)
    generalize hlead : (if (ownLine ||
      trailingLineComment (list.tree.children.modify i withSeparator) i) = true then _
      else oneSpace) = lead
    have hlead : comments lead = [] := by
      rw [← hlead]
      split
      · exact comments_newLine _ _
      · rfl
    have hmodify := keeps_modify list.tree.children i
    have hinsert := keeps_insertAfter (list.tree.children.modify i withSeparator) i hlead
      (hvalue (Argument.isLast list.tree.children i))
    rw [Tree.eq_node_of_isNode hnode]
    exact (hmodify.trans hinsert).mono (by simp)

/-! ## Arrays written anew -/

theorem hasComments_directTrivia (trees : List Tree) :
    hasComments (directTrivia trees) = trees.any Tree.isComment := by
  induction trees with
  | nil => rfl
  | cons t trees ih =>
    rw [hasComments, directTrivia] at ih ⊢
    rw [List.any_cons, ← ih]
    cases t with
    | node k cs => rfl
    | token u =>
      rw [List.filterMap_cons_some (Tree.token?_token u), List.filter_cons]
      have hcomment : u.isTrivia = false → u.kind.isComment = false := by
        rw [Token.isTrivia]
        cases u.kind <;> simp [TokenKind.isTrivia, TokenKind.isComment]
      cases hu : u.isTrivia with
      | true => rfl
      | false => simp [hcomment hu]

theorem comments_leaves {ts : List Token} (h : (leaves ts).any Tree.isComment = false) :
    comments ts = [] := by
  rw [comments, List.filter_eq_nil_iff]
  intro t ht
  have := List.any_eq_false.1 h (.token t) (List.mem_map_of_mem ht)
  exact this

section Reflow

variable {budget : Nat} {trees : List Tree}

theorem comments_element {separated : Bool} {e v : Tree}
    (h : Element (Operand budget) .arrayElement separated e) (hv : e.expr? = some v)
    (hnone : e.children.any Tree.isComment = false) : comments e.tokens = comments v.tokens := by
  cases h with
  | @bare label value hlabel hvalue =>
    obtain rfl := label_arrayElement hlabel
    obtain rfl : value = v := by simpa [Tree.expr?, leaves, hvalue.isExpr] using hv
    simp [leaves]
  | @separated label before value comma hlabel hvalue hbefore hcomma =>
    obtain rfl := label_arrayElement hlabel
    obtain rfl : value = v := by simpa [Tree.expr?, leaves, hvalue.isExpr] using hv
    have hbefore : comments before = [] := by
      refine comments_leaves ?_
      rw [Tree.children_node, List.any_append, List.any_append, List.any_cons] at hnone
      simp_all
    have hcomma : comments [comma] = [] := by simp [comments, hcomma, TokenKind.isComment]
    simp [hbefore, hcomma]

/-- Where no comment stands beside the expressions, those in them are all there are. -/
theorem comments_elements (h : Elements (Operand budget) .arrayElement .rBracket trees)
    (hdirect : trees.any Tree.isComment = false)
    (hinner : ∀ e ∈ trees, e.isNode .arrayElement = true → e.children.any Tree.isComment = false) :
    comments (Tree.tokensList trees) =
      (Source.Tree.node .arrayExpr trees).elementExprs.flatMap fun v => comments v.tokens := by
  have hclose {behind : List Token} {t : Token} (ht : t.kind = .rBracket)
      (hnone : (leaves behind ++ [Tree.token t]).any Tree.isComment = false) :
      comments (Tree.tokensList (leaves behind ++ [.token t])) = [] := by
    rw [List.any_append, Bool.or_eq_false_iff] at hnone
    rw [Tree.tokensList_append, tokensList_leaves, comments_append, comments_leaves hnone.1]
    simp [comments, ht, TokenKind.isComment]
  -- Behind an element come elements or nothing but the bracket.
  have hfirst {before : List Token} {separated : Bool} {e : Tree} {more : List Tree}
      (he : Element (Operand budget) .arrayElement separated e)
      (hdirect : (leaves before ++ e :: more).any Tree.isComment = false)
      (hchildren : e.children.any Tree.isComment = false)
      (hmore : comments (Tree.tokensList more) =
        (Source.Tree.node .arrayExpr more).elementExprs.flatMap fun v => comments v.tokens) :
      comments (Tree.tokensList (leaves before ++ e :: more)) =
        (Source.Tree.node .arrayExpr (leaves before ++ e :: more)).elementExprs.flatMap fun v =>
          comments v.tokens := by
    obtain ⟨v, hv, _⟩ := he.exists_expr?
    rw [List.any_append, Bool.or_eq_false_iff] at hdirect
    rw [elementExprs_cons he.isNode hv, List.flatMap_cons, ← hmore,
      ← comments_element he hv hchildren, Tree.tokensList_append, tokensList_leaves,
      comments_append, comments_leaves hdirect.1, Tree.tokensList_cons, comments_append,
      List.nil_append]
  induction h with
  | close hbefore ht => rw [elementExprs_close, hclose ht hdirect, List.flatMap_nil]
  | @last before behind e t hbefore he hbehind ht =>
    rw [List.append_assoc, List.cons_append] at hdirect ⊢
    refine hfirst he hdirect (hinner e (by simp) he.isNode) ?_
    rw [List.any_append, List.any_cons, Bool.or_eq_false_iff, Bool.or_eq_false_iff] at hdirect
    rw [elementExprs_close, hclose ht hdirect.2.2, List.flatMap_nil]
  | @next before e more hbefore he _ ih =>
    refine hfirst he hdirect (hinner e (by simp) he.isNode) ?_
    rw [List.any_append, List.any_cons, Bool.or_eq_false_iff, Bool.or_eq_false_iff] at hdirect
    exact ih hdirect.2.2 fun f hf => hinner f (by simp [hf])

theorem comments_elementLines {lead : List Token} (hlead : comments lead = []) (exprs : List Tree) :
    comments (Tree.tokensList (elementLines lead exprs)) =
      exprs.flatMap fun v => comments v.tokens := by
  fun_induction elementLines lead exprs with
  | case1 => rfl
  | case2 expr => simp [hlead]
  | case3 expr next more ih =>
    have hcomma : comments [⟨.comma, [',']⟩] = [] := rfl
    have htokens : Tree.tokensList (leaves lead ++ .node .arrayElement [expr, commaToken] ::
        elementLines lead (next :: more)) = lead ++ (expr.tokens ++ ([⟨.comma, [',']⟩] ++
          Tree.tokensList (elementLines lead (next :: more)))) := by
      simp [commaToken]
    rw [List.flatMap_cons, ← ih, htokens, comments_append, comments_append, comments_append, hlead,
      hcomma]
    rfl

theorem comments_literal {array : Tree} (h : ArrayLiteral (Operand budget) array)
    (hnone : holdsComments array = false) :
    comments array.tokens = array.elementExprs.flatMap fun v => comments v.tokens := by
  rw [holdsComments, hasComments_directTrivia, Bool.or_eq_false_iff] at hnone
  cases h with
  | @intro t children ht helements =>
    obtain ⟨hdirect, hinner⟩ := hnone
    rw [Tree.children_node, List.any_cons, Bool.or_eq_false_iff] at hdirect
    have hbracket : comments [t] = [] := by simp [comments, ht, TokenKind.isComment]
    have hchildren := comments_elements helements hdirect.2 fun e he hnode => by
      have := List.any_eq_false.1 hinner e (List.mem_filter.2 ⟨by simp [he], hnode⟩)
      simpa using this
    rw [Tree.tokens_node, Tree.tokensList_cons, comments_append, hchildren, Tree.tokens_token,
      hbracket]
    rfl

theorem tokens_reflow (layout : Layout) (site : Site) (level : Nat) (exprs : List Tree) :
    (reflow layout site level exprs).replacement.tokens = [⟨.lBracket, ['[']⟩] ++
      (Tree.tokensList (elementLines (layout.newLine (level + 1)) exprs) ++
        (layout.newLine level ++ [⟨.rBracket, [']']⟩])) := by
  simp [reflow]

theorem comments_reflow (layout : Layout) (site : Site) (level : Nat) (exprs : List Tree) :
    comments (reflow layout site level exprs).replacement.tokens =
      exprs.flatMap fun v => comments v.tokens := by
  have hopen : comments [⟨.lBracket, ['[']⟩] = [] := rfl
  have hclose : comments [⟨.rBracket, [']']⟩] = [] := rfl
  rw [tokens_reflow, comments_append, comments_append, comments_append, hopen, hclose,
    comments_newLine, comments_elementLines (comments_newLine layout _)]
  simp

theorem significant_eq {t : Tree} (h : t.isTrivia = false) : significant t.tokens = t.bare.tokens :=
  (Tree.tokens_bare t h).symm

theorem elementLines_cons (x : Tree) {exprs : List Tree} (h : exprs ≠ []) :
    elementLines [] (x :: exprs) =
      .node .arrayElement [x, commaToken] :: elementLines [] exprs := by
  obtain ⟨next, more, rfl⟩ := List.exists_cons_of_ne_nil h
  rfl

theorem plainArray_sublist (exprs more : List Tree) (e : Tree) :
    (plainArray (exprs ++ [e])).tokens.Sublist (plainArray (exprs ++ e :: more)).tokens := by
  have hlines : (Tree.tokensList (elementLines [] (exprs ++ [e]))).Sublist
      (Tree.tokensList (elementLines [] (exprs ++ e :: more))) := by
    induction exprs with
    | nil =>
      cases more with
      | nil => exact List.Sublist.refl _
      | cons next more =>
        rw [List.nil_append, List.nil_append, elementLines_cons e (List.cons_ne_nil _ _)]
        simp [elementLines]
    | cons x exprs ih =>
      rw [List.cons_append, List.cons_append, elementLines_cons x (by simp),
        elementLines_cons x (by simp), Tree.tokensList_cons, Tree.tokensList_cons]
      exact (List.Sublist.refl _).append ih
  simp only [plainArray, Tree.tokens_node, Tree.tokensList_append, Tree.tokensList_cons,
    List.cons_append]
  exact (List.Sublist.refl _).append (hlines.append (List.Sublist.refl _))

/-- An expression that can be put into a list anywhere: it nests less than `budget` deep, its tokens
are their own cut, and no comment is among them. -/
structure Fresh (budget : Nat) (e : Tree) : Prop extends Readable budget e where
  comments : comments e.tokens = []

theorem Fresh.isTrivia {e : Tree} (h : Fresh budget e) : e.isTrivia = false :=
  Tree.isTrivia_of_token? (Tree.token?_of_isExpr h.sequence.isExpr)

theorem isTrivia_of_mem_elementExprs {array e : Tree} (h : ArrayLiteral (Operand budget) array)
    (he : e ∈ array.elementExprs) : e.isTrivia = false :=
  Tree.isTrivia_of_token? (Tree.token?_of_isExpr (sequence_of_mem_elementExprs h he).isExpr)

/-- What giving more elements to an array does: it is rewritten, without trivia it is the array of
its expressions and the new ones, and it keeps what it held. -/
structure Grown (lossy : Prop) (budget : Nat) (old new : Tree) (extra : List Tree) : Prop
    extends Rewrites budget old new (old.elementExprs ++ extra) where
  bare : new.bare = plainArray ((old.elementExprs ++ extra).map Tree.bare)
  keeps : Keeps lossy old.tokens new.tokens

section Grown

variable {site : Site} {extra : List Tree} {expr : Tree}

theorem Grown.trans {p q : Prop} {old mid new : Tree} {more : List Tree}
    (h : Grown p budget old mid extra) (h' : Grown q budget mid new more) :
    Grown (p ∨ q) budget old new (extra ++ more) where
  literal := h'.literal
  relexes := h.relexes.trans h'.relexes
  elementExprs := by rw [h'.elementExprs, h.elementExprs, List.append_assoc]
  bare := by rw [h'.bare, h.elementExprs, List.append_assoc]
  keeps := h.keeps.trans h'.keeps

theorem append_grown (layout : Layout) (level : Nat) (h : ArrayLiteral (Operand budget) site.tree)
    (hlexed : ∃ rest, Lexed site.tree.tokens rest) (hexpr : Fresh budget expr) :
    Grown False budget site.tree (append layout site expr level).replacement [expr] where
  toRewrites := append_rewrites layout level h hexpr.toReadable
  bare := append_bare layout level h hlexed hexpr.toReadable
  keeps := append_keeps layout level h.isNode hexpr.comments

/-- An array that is written anew keeps the comments, if there are none beside its expressions, and
the significant tokens. Blanks beside the expressions may be lost. -/
theorem reflow_grown (layout : Layout) (level : Nat) (h : ArrayLiteral (Operand budget) site.tree)
    (hlexed : ∃ rest, Lexed site.tree.tokens rest) (hnone : holdsComments site.tree = false)
    (hsome : extra ≠ []) (hextra : ∀ e ∈ extra, Fresh budget e) :
    Grown (site.tree ≠ emptyArrayTree) budget site.tree
      (reflow layout site level (site.tree.elementExprs ++ extra)).replacement extra := by
  have hexprs : ∀ e ∈ site.tree.elementExprs ++ extra, e.isTrivia = false := by
    intro e he
    rcases List.mem_append.1 he with he | he
    · exact isTrivia_of_mem_elementExprs h he
    · exact (hextra e he).isTrivia
  have hbare := reflow_bare layout site level hexprs
  refine ⟨reflow_rewrites layout level h (fun e he => ?_), hbare, ?_, ?_, ?_⟩
  · rcases List.mem_append.1 he with he | he
    · exact readable_of_mem_elementExprs h hlexed he
    · exact (hextra e he).toReadable
  · have hnew : (extra.flatMap fun e => comments e.tokens) = [] := by
      rw [List.flatMap_eq_nil_iff]
      exact fun e he => (hextra e he).comments
    rw [comments_reflow, List.flatMap_append, hnew, List.append_nil, comments_literal h hnone]
  · -- Appending the first of the new expressions keeps the tokens, and the others go behind it.
    obtain ⟨e, more, rfl⟩ := List.exists_cons_of_ne_nil hsome
    have happended := append_grown layout level h hlexed (hextra e (List.mem_cons_self ..))
    have hkept := happended.keeps.significant
    rw [@significant_eq (append layout site e level).replacement rfl, happended.bare,
      List.map_append] at hkept
    rw [@significant_eq (reflow layout site level _).replacement rfl, hbare, List.map_append]
    exact hkept.trans (plainArray_sublist _ _ _)
  · intro hempty
    rw [Classical.not_not] at hempty
    rw [tokens_reflow, hempty, ← List.append_assoc (Tree.tokensList _)]
    exact (List.Sublist.refl [_]).append (List.sublist_append_right _ _)

end Grown

end Reflow

/-! ## New expressions -/

theorem comments_word (name : List Char) : comments [word name] = [] := by
  have hname : (word name).kind.isNameLike = true := isNameLike_ofWord? name
  have hkind : (word name).kind.isComment = false := by
    cases hkind : (word name).kind <;> rw [hkind] at hname <;> first | rfl | cases hname
  simp [comments, hkind]

theorem comments_argument (label : List Char) {value : Tree} (h : comments value.tokens = [])
    (last : Bool) : comments (Argument.argument label value last).tokens = [] := by
  have htokens : (Argument.argument label value last).tokens = [word label] ++
      ([⟨.colon, [':']⟩, ⟨.whitespace, [' ']⟩] ++
        (value.tokens ++ if last then [] else [⟨.comma, [',']⟩])) :=
    tokens_argument label value last
  rw [htokens, comments_append, comments_append, comments_append, comments_word, h]
  cases last <;> rfl

theorem comments_memberCall (name : List Char) (arguments : List (List Char × List Char)) :
    comments (memberCall name arguments).tokens = [] := by
  have hvalue (value : List Char) : comments (stringExpr value).tokens = [] := rfl
  have harguments : comments (Tree.tokensList (argumentTrees arguments)) = [] := by
    fun_induction argumentTrees arguments with
    | case1 => rfl
    | case2 a => simp [comments_argument a.1 (hvalue a.2)]
    | case3 a b more ih =>
      rw [Tree.tokensList_cons, comments_append, comments_argument a.1 (hvalue a.2)]
      exact ih
  have htokens : (memberCall name arguments).tokens = [⟨.dot, ['.']⟩] ++ ([word name] ++
      ([⟨.lParen, ['(']⟩] ++ (Tree.tokensList (argumentTrees arguments) ++
        [⟨.rParen, [')']⟩]))) := by
    simp [memberCall]
  rw [htokens, comments_append, comments_append, comments_append, comments_append, comments_word,
    harguments]
  rfl

theorem packageTree_fresh (budget : Nat) (d : Dependency) : Fresh (budget + 2) (packageTree d) :=
  ⟨⟨.single (memberCall_operand budget _ _), [], packageTree_free d []⟩, comments_memberCall _ _⟩

theorem productTree_fresh (budget : Nat) (product package : String) :
    Fresh (budget + 2) (productTree product package) :=
  ⟨⟨.single (memberCall_operand budget _ _), [], productTree_free product package []⟩,
    comments_memberCall _ _⟩

end PackageManifest.Proofs.Edits
