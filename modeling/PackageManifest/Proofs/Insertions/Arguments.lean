import PackageManifest.Proofs.Edits.Keeping
import PackageManifest.Proofs.Insertions.Places

/-!
# Inserting an argument

Main statement: `insertAfterFirst_inserts`. A new argument is written behind an argument with one of
the candidate labels, and starts a line if it has to or if a line comment trails that argument. The
rest of the list stays as it is.
-/

namespace PackageManifest.Proofs.Insertions

open Source Grammar Lexing Shapes Edits Revisions PackageManifest.Edit

/-! ## Lines -/

def firstLine : List Token → List Token
  | [] => []
  | t :: ts => t :: if t.breaksLine then [] else firstLine ts

theorem firstLine_sublist (ts us : List Token) : (firstLine ts).Sublist (firstLine (ts ++ us)) := by
  induction ts with
  | nil => exact List.nil_sublist _
  | cons t ts ih =>
    rw [List.cons_append, firstLine, firstLine]
    split
    · exact List.Sublist.refl _
    · exact ih.cons_cons t

theorem firstLine_append {ts : List Token} (us : List Token) (h : containsNewline ts = false) :
    firstLine (ts ++ us) = ts ++ firstLine us := by
  induction ts with
  | nil => rfl
  | cons t ts ih =>
    rw [containsNewline, List.any_cons, Bool.or_eq_false_iff] at h
    rw [List.cons_append, firstLine, h.1, if_neg (by decide), ih h.2, List.cons_append]

theorem newline_of_lineComment {u v : Token} {more : List Token} {rest : List Char}
    (h : Lexed (u :: v :: more) rest) (hu : u.kind = .lineComment) : v.kind = .newline := by
  refine Decidable.byContradiction fun hv => ?_
  obtain ⟨hcuts, hcuts', _⟩ := h
  have hfits := hcuts.fits
  simp only [Fits, hu] at hfits
  have hbreak := hcuts'.stops_break hv (textOf more ++ rest)
  rw [textOf_cons, List.append_assoc] at hfits
  cases htext : v.text with
  | nil => exact hcuts'.text_ne_nil htext
  | cons c cs =>
    rw [htext] at hfits hbreak
    have hline : (!isBreak c) = false := stops_cons.1 hfits
    rw [stops_cons.1 hbreak] at hline
    cases hline

/-- A line comment that trails something is the last of what trails it. -/
theorem endsWithLineComment_iff {inline more : List Token} {rest : List Char}
    (hlexed : Lexed (inline ++ more) rest) (hinline : ∀ u ∈ inline, u.isInlineTrivia = true) :
    endsWithLineComment inline = true ↔ ∃ u ∈ inline, u.kind = .lineComment := by
  constructor
  · intro h
    unfold endsWithLineComment at h
    split at h
    · cases h
    · rename_i u hlast
      exact ⟨u, List.mem_of_getLast? hlast, beq_iff_eq.1 h⟩
  · rintro ⟨u, hu, hkind⟩
    obtain ⟨before, after, rfl⟩ := List.append_of_mem hu
    cases after with
    | nil => simp [endsWithLineComment, hkind]
    | cons v after =>
      -- What follows the comment is a line break, which does not stay on the line.
      rw [List.append_assoc] at hlexed
      have hnewline := newline_of_lineComment (lexed_append.1 hlexed).2 hkind
      have hline := hinline v (by simp)
      rw [Token.isInlineTrivia, hnewline, Bool.and_eq_true_iff] at hline
      cases hline.2

/-! ## Inserting an argument -/

def carries (call : Tree) (label : String) : Bool :=
  call.arguments.any (Tree.hasLabel label.toList)

def leading (layout : Layout) (level : Nat) (ownLine : Bool) (children : List Tree) (i : Nat) :
    List Token :=
  if ownLine || trailingLineComment children i then layout.newLine level else oneSpace

section Anchor

variable {call : Site} {candidates : List String} (layout : Layout) (root : Tree) (label : String)
  (value : Tree) (ownLine : Bool)

theorem carries_eq (call : Tree) (label : String) :
    carries call label = (lookup? label.toList (fields call)).isSome := by
  rw [carries, lookup?, fields, List.find?_map, Option.isSome_map, List.isSome_find?]
  rfl

theorem anchorLabel?_eq (candidates : List String) (call : Tree) :
    anchorLabel? candidates (fields call) = candidates.find? (carries call) := by
  rw [anchorLabel?]
  congr 1
  funext c
  rw [carries_eq]

theorem insertAfterFirst_of_none (h : candidates.find? (carries call.tree) = none) :
    Argument.insertAfterFirst layout root call candidates label value ownLine =
      .error (.missingAnchor label candidates) := by
  rw [Argument.insertAfterFirst]
  cases hlist : call.argumentList? with
  | none => rfl
  | some list =>
    simp only
    rw [findSome?_anchor, ← Tree.listArguments, ← fields_of_argumentList? hlist, anchorLabel?_eq, h]
    rfl

theorem exists_find? {children : List Tree} {label : List Char}
    (h : (children.filter (Tree.isNode .argument)).any (Tree.hasLabel label) = true) :
    ∃ left a right, children = left ++ a :: right ∧
      Argument.find? children label = some left.length ∧ a.isNode .argument = true ∧
      a.label? = some label ∧
      ∀ b ∈ left.filter (Tree.isNode .argument), b.label? ≠ some label := by
  rcases find?_cases children label with
    ⟨_, hlookup⟩ | ⟨left, a, right, rfl, hsome, ha, hlabel, hleft⟩
  · obtain ⟨b, hb, hlabel⟩ := List.any_eq_true.1 h
    rw [lookup?, List.find?_eq_none] at hlookup
    exact absurd hlabel (hlookup (field b) (List.mem_map.2 ⟨b, hb, rfl⟩))
  · refine ⟨left, a, right, rfl, hsome, ha, hlabel, fun b hb hother => ?_⟩
    have hne := hleft (field b) (List.mem_map.2 ⟨b, hb, rfl⟩)
    rw [field, hother, beq_self_eq_true] at hne
    cases hne

theorem insertAfterFirst_of_some {c : String}
    (h : candidates.find? (carries call.tree) = some c) :
    ∃ list left a right, call.argumentList? = some list ∧
      list.tree = .node .argumentList (left ++ a :: right) ∧ a.isNode .argument = true ∧
      a.label? = some c.toList ∧
      (∀ b ∈ left.filter (Tree.isNode .argument), b.label? ≠ some c.toList) ∧
      Argument.insertAfterFirst layout root call candidates label value ownLine =
        .ok ⟨list, .node .argumentList
          (insertAfter (left ++ withSeparator a :: right) left.length
            (leading layout (Argument.callLevel layout root call + 1) ownLine
              (left ++ withSeparator a :: right) left.length)
            (Argument.argument label.toList value (!right.any (Tree.isNode .argument))))⟩ := by
  have hcarries := List.find?_some h
  obtain ⟨b, hb, _⟩ := List.any_eq_true.1 hcarries
  obtain ⟨list, hlist⟩ := Site.exists_argumentList? (List.ne_nil_of_mem hb)
  have hnode : list.tree.isNode .argumentList = true := by
    have := List.find?_some hlist
    exact this
  obtain ⟨children, htree⟩ : ∃ children, list.tree = .node .argumentList children :=
    ⟨_, Tree.eq_node_of_isNode hnode⟩
  have hfields := fields_of_argumentList? hlist
  rw [carries, Site.arguments_of_argumentList? hlist] at hcarries
  rw [htree, Tree.listArguments, Tree.children_node] at hcarries hfields
  obtain ⟨left, a, right, rfl, hsome, ha, hlabel, hleft⟩ := exists_find? hcarries
  refine ⟨list, left, a, right, hlist, htree, ha, hlabel, hleft, ?_⟩
  rw [Argument.insertAfterFirst]
  simp only [hlist, htree, Tree.children_node, findSome?_anchor, ← hfields, anchorLabel?_eq, h,
    Option.bind_some, hsome, modify_split, isLast_split, leading]

end Anchor

/-- The arguments of `new` are those of `old` with `label: value` behind `a`, and all but the last
end with a comma. -/
structure Inserts (label : List Char) (value old new : Tree) (before : List Tree) (a n : Tree)
    (after : List Tree) : Prop where
  was : old.listArguments = before ++ a :: after
  becomes : new.listArguments = before ++ withSeparator a :: n :: after
  fields : new.listArguments.map field =
    before.map field ++ field a :: (some label, some value) :: after.map field
  commas : ∀ e ∈ new.listArguments.dropLast, hasSeparator e = true
  comma : hasSeparator n = true ↔ after ≠ []

/-- A new argument starts a line if it has to, and if `inline`, which it goes behind, holds a line
comment. -/
def StartsLine (ownLine : Bool) (inline : List Token) : Prop :=
  ownLine = true ∨ ∃ u ∈ inline, u.kind = .lineComment

/-- The text of `new` is that of `old` with a comma behind `a`, if it lacks one, and with `n` behind
`a`, or behind the trivia `inline` that trails `a` on its line if `n` starts a line. -/
structure Writes (ownLine : Bool) (line : List Token) (old new a n : Tree)
    (inline behind : List Token) : Prop where
  tokens : ∃ left more, old = .node .argumentList (left ++ a :: (leaves inline ++ more)) ∧
    Trails inline more ∧
    new.tokens = Tree.tokensList left ++ a.tokens ++ missingComma a ++ behind ∧
    (StartsLine ownLine inline ∧
        behind = inline ++ (line ++ n.tokens) ++ Tree.tokensList more ∨
      ¬StartsLine ownLine inline ∧
        behind = oneSpace ++ n.tokens ++ inline ++ Tree.tokensList more)
  /-- Every comment stays. -/
  comments : (comments old.tokens).Sublist (comments new.tokens)
  /-- What trails `a` on its line stays there, unless a line break comes before it with `n`. -/
  sameLine : StartsLine ownLine inline ∨ containsNewline n.tokens = false →
    (firstLine inline).Sublist (firstLine behind)

section Insert

variable {left more : List Tree} {a value : Tree} {inline : List Token} {label : List Char}

theorem field_withSeparator (a : Tree) : field (withSeparator a) = field a := by
  rw [field, field, label?_withSeparator, expr?_withSeparator]

theorem hasSeparator_argument (label : List Char) (hvalue : value.isExpr = true) (last : Bool) :
    hasSeparator (Argument.argument label value last) = !last := by
  cases value with
  | token t => cases hvalue
  | node kind children => cases last <;> rfl

theorem inserts_insertAfter (lead : List Token) {right : List Tree} {n : Tree}
    (hshaped : Shaped (.node .argumentList (left ++ a :: right)))
    (ha : a.isNode .argument = true) (hn : n.isNode .argument = true)
    (hfield : field n = (some label, some value))
    (hcomma : hasSeparator n = right.any (Tree.isNode .argument)) :
    Inserts label value (.node .argumentList (left ++ a :: right))
      (.node .argumentList (insertAfter (left ++ withSeparator a :: right) left.length lead n))
      (left.filter (Tree.isNode .argument)) a n (right.filter (Tree.isNode .argument)) := by
  have hwas : (left ++ a :: right).filter (Tree.isNode .argument) =
      left.filter (Tree.isNode .argument) ++ a :: right.filter (Tree.isNode .argument) := by
    rw [List.filter_append, List.filter_cons_of_pos ha]
  have hbecomes : (insertAfter (left ++ withSeparator a :: right) left.length lead n).filter
        (Tree.isNode .argument) =
      left.filter (Tree.isNode .argument) ++
        withSeparator a :: n :: right.filter (Tree.isNode .argument) := by
    have hsep : (withSeparator a).isNode .argument = true := by rw [isNode_withSeparator, ha]
    rw [filter_insertAfter _ _ _ _ hn, List.filter_append, List.filter_cons_of_pos hsep,
      List.filter_nil, List.append_assoc]
    rfl
  have hcomma : hasSeparator n = true ↔ right.filter (Tree.isNode .argument) ≠ [] := by
    rw [hcomma, Ne, List.filter_eq_nil_iff, List.any_eq_true]
    simp
  refine ⟨hwas, hbecomes, ?_, ?_, hcomma⟩
  · rw [Tree.listArguments, Tree.children_node, hbecomes, List.map_append, List.map_cons,
      List.map_cons, field_withSeparator, hfield]
  · have hcommas := hasSeparator_of_shaped rfl hshaped
    rw [hwas] at hcommas
    rw [Tree.listArguments, Tree.children_node, hbecomes]
    exact hasSeparator_insert hcommas (hasSeparator_withSeparator ha) hcomma.2

/-- What is between `a` and the rest of the list is still there, on the same line unless a new
argument with a line break in it comes before. -/
theorem writes_of_tokens {ownLine : Bool} {line behind : List Token} {new n : Tree}
    (htrails : Trails inline more)
    (hnew : new.tokens = Tree.tokensList left ++ a.tokens ++ missingComma a ++ behind)
    (hbehind : StartsLine ownLine inline ∧
        behind = inline ++ (line ++ n.tokens) ++ Tree.tokensList more ∨
      ¬StartsLine ownLine inline ∧
        behind = oneSpace ++ n.tokens ++ inline ++ Tree.tokensList more) :
    Writes ownLine line (.node .argumentList (left ++ a :: (leaves inline ++ more))) new a n inline
      behind := by
  refine ⟨⟨left, more, rfl, htrails, hnew, hbehind⟩, ?_, fun hline => ?_⟩
  · have hrest : (inline ++ Tree.tokensList more).Sublist behind := by
      rcases hbehind with ⟨_, rfl⟩ | ⟨_, rfl⟩
      · exact (List.sublist_append_left _ _).append (List.Sublist.refl _)
      · rw [List.append_assoc _ inline]
        exact List.sublist_append_right _ _
    have hold : (Source.Tree.node .argumentList (left ++ a :: (leaves inline ++ more))).tokens =
        Tree.tokensList left ++ a.tokens ++ (inline ++ Tree.tokensList more) := by simp
    rw [hold, hnew]
    exact ((List.sublist_append_left _ _).append hrest).filter _
  · rcases hbehind with ⟨_, rfl⟩ | ⟨hno, rfl⟩
    · rw [List.append_assoc]
      exact firstLine_sublist _ _
    · -- Neither the blank nor the argument ends the line.
      have hargument : containsNewline n.tokens = false := hline.resolve_left hno
      have hspace : containsNewline oneSpace = false := rfl
      rw [List.append_assoc, List.append_assoc, firstLine_append _ hspace,
        firstLine_append _ hargument, ← List.append_assoc]
      exact (firstLine_sublist _ _).trans (List.sublist_append_right _ _)

theorem writes_insertAfter (layout : Layout) (level : Nat) (ownLine : Bool) (n : Tree)
    {rest : List Char} (htrails : Trails inline more)
    (hlexed : Lexed (inline ++ Tree.tokensList more) rest) (ha : a.isNode .argument = true) :
    ∃ behind, Writes ownLine (layout.newLine level)
      (.node .argumentList (left ++ a :: (leaves inline ++ more)))
      (.node .argumentList (insertAfter (left ++ withSeparator a :: (leaves inline ++ more))
        left.length (leading layout level ownLine
          (left ++ withSeparator a :: (leaves inline ++ more)) left.length) n)) a n inline
      behind := by
  rw [leading, htrails.trailingLineComment_eq]
  have hstarts : (ownLine || endsWithLineComment inline) = true ↔ StartsLine ownLine inline := by
    rw [StartsLine, Bool.or_eq_true, endsWithLineComment_iff hlexed htrails.inline]
  by_cases hline : (ownLine || endsWithLineComment inline) = true
  · rw [if_pos hline]
    refine ⟨_, writes_of_tokens htrails ?_ (.inl ⟨hstarts.1 hline, rfl⟩)⟩
    rw [Tree.tokens_node, htrails.tokens_insertAfter,
      if_pos (containsNewline_newLine layout level), tokens_withSeparator ha]
    simp
  · rw [if_neg hline]
    refine ⟨_, writes_of_tokens htrails ?_ (.inr ⟨fun h => hline (hstarts.2 h), rfl⟩)⟩
    rw [Tree.tokens_node, htrails.tokens_insertAfter, if_neg (by decide), tokens_withSeparator ha]
    simp

end Insert

/-- A new argument of a call of a parsed manifest goes behind the first argument with the first of
the candidate labels that is there, and there is no edit exactly if none of them is. The rest of the
text stays, and what trails the anchor on its line stays on that line, unless a new argument with a
line break in it goes on that line as well. -/
theorem insertAfterFirst_inserts {source : String} {root value : Tree} {call : Site}
    (hparse : parse source = .ok root) (hcall : Found root .callExpr call)
    (hvalue : value.isExpr = true) (layout : Layout) (candidates : List String) (label : String)
    (ownLine : Bool) :
    (Argument.insertAfterFirst layout root call candidates label value ownLine =
        .error (.missingAnchor label candidates) ↔
      ∀ c ∈ candidates, ∀ a ∈ call.tree.arguments, a.label? ≠ some c.toList) ∧
    ∀ c, candidates.find? (carries call.tree) = some c →
      ∃ list new before a n after inline behind,
        Argument.insertAfterFirst layout root call candidates label value ownLine =
          .ok ⟨list, new⟩ ∧
        call.argumentList? = some list ∧
        Edit.applyTo? ⟨list, new⟩ root = some (root.set list.path new) ∧
        a.label? = some c.toList ∧ (∀ b ∈ before, b.label? ≠ some c.toList) ∧
        Inserts label.toList value list.tree new before a n after ∧
        Writes ownLine (layout.newLine (Argument.callLevel layout root call + 1)) list.tree new a n
          inline behind := by
  have hnone : candidates.find? (carries call.tree) = none ↔
      ∀ c ∈ candidates, ∀ a ∈ call.tree.arguments, a.label? ≠ some c.toList := by
    simp [List.find?_eq_none, carries, Tree.hasLabel]
  refine ⟨⟨fun herror => hnone.1 ?_, fun h => ?_⟩, fun c hc => ?_⟩
  · cases hfind : candidates.find? (carries call.tree) with
    | none => rfl
    | some c =>
      obtain ⟨_, _, _, _, _, _, _, _, _, hok⟩ :=
        insertAfterFirst_of_some layout root label value ownLine hfind
      rw [hok] at herror
      cases herror
  · exact insertAfterFirst_of_none layout root label value ownLine (hnone.2 h)
  · obtain ⟨list, left, a, right, hlist, htree, ha, hlabel, hfirst, hok⟩ :=
      insertAfterFirst_of_some layout root label value ownLine hc
    have hfound := get?_argumentList? hcall.get? hlist
    have hshaped := hfound.shaped (rooted_of_parse hparse) (by decide)
    obtain ⟨rest, hlexed⟩ := lexed_of_found (faithful_of_parse hparse) hfound
    rw [htree] at hshaped hlexed
    obtain ⟨inline, more, rfl, htrails⟩ := exists_trails right
    have htrailing : Lexed (inline ++ Tree.tokensList more) rest := by
      have hsplit : (Source.Tree.node .argumentList (left ++ a :: (leaves inline ++ more))).tokens =
          Tree.tokensList left ++ a.tokens ++ (inline ++ Tree.tokensList more) := by simp
      rw [hsplit] at hlexed
      exact (lexed_append.1 hlexed).2
    obtain ⟨behind, hwrites⟩ := writes_insertAfter layout
      (Argument.callLevel layout root call + 1) ownLine _ htrails htrailing ha
    have hcomma := hasSeparator_argument label.toList hvalue
      (!(leaves inline ++ more).any (Tree.isNode .argument))
    rw [Bool.not_not] at hcomma
    have hinserts := fun lead => inserts_insertAfter lead hshaped ha rfl
      (field_argument hvalue _) hcomma
    rw [← htree] at hwrites hinserts
    exact ⟨list, _, _, a, _, _, inline, behind, hok, hlist, applyTo?_node _ hfound.isNode, hlabel,
      hfirst, hinserts _, hwrites⟩

/-- An argument for the second candidate, which a line comment trails. -/
theorem insertAfterFirst_inserts_behind_comment :
    ∃ root call value list new before a n after inline behind,
      parse "let p = f(b: 1, a: 2 // one\n)" = .ok root ∧ Found root .callExpr call ∧
      Snippet.expression ['x'] = .ok value ∧ ["z", "a", "b"].find? (carries call.tree) = some "a" ∧
      Argument.insertAfterFirst ⟨.spaces 2, .lf⟩ root call ["z", "a", "b"] "l" value false =
        .ok ⟨list, new⟩ ∧
      new.text = "(b: 1, a: 2, // one\n  l: x\n)".toList ∧
      Inserts ['l'] value list.tree new before a n after ∧
      Writes false (Layout.newLine ⟨.spaces 2, .lf⟩ 1) list.tree new a n inline behind := by
  have hrun : ((parse "let p = f(b: 1, a: 2 // one\n)").toOption.bind fun root =>
      (root.get? [0, 6]).bind fun call => (Snippet.expression ['x']).toOption.bind fun value =>
        (Argument.insertAfterFirst ⟨.spaces 2, .lf⟩ root ⟨[0, 6], call⟩ ["z", "a", "b"] "l" value
          false).toOption.map fun edit => call.isNode .callExpr && value.isExpr &&
            ["z", "a", "b"].find? (carries call) == some "a" &&
            Argument.callLevel ⟨.spaces 2, .lf⟩ root ⟨[0, 6], call⟩ == 0 &&
            edit.replacement.text == "(b: 1, a: 2, // one\n  l: x\n)".toList) = some true := by
    decide +kernel
  simp only [Option.bind_eq_some_iff, Option.map_eq_some_iff, Bool.and_eq_true, beq_iff_eq] at hrun
  obtain ⟨root, hroot, call, hget, value, hsnippet, edit, hedit,
    ⟨⟨⟨hnode, hexpr⟩, hfirst⟩, hlevel⟩, htext⟩ := hrun
  have hparse := RoundTrip.eq_ok_of_toOption hroot
  have hcall : Found root .callExpr ⟨[0, 6], call⟩ := ⟨hget, hnode⟩
  obtain ⟨list, new, before, a, n, after, inline, behind, hok, _, _, _, _, hinserts, hwrites⟩ :=
    (insertAfterFirst_inserts hparse hcall hexpr ⟨.spaces 2, .lf⟩ ["z", "a", "b"] "l" false).2
      "a" hfirst
  obtain rfl := Except.ok.inj ((RoundTrip.eq_ok_of_toOption hedit).symm.trans hok)
  rw [hlevel] at hwrites
  exact ⟨root, ⟨[0, 6], call⟩, value, list, new, before, a, n, after, inline, behind, hparse, hcall,
    RoundTrip.eq_ok_of_toOption hsnippet, hfirst, hok, htext, hinserts, hwrites⟩

/-- Before a block comment, an argument that stays on the line and has a line break in it moves the
comment to another line. -/
theorem insertAfterFirst_moves_comment :
    ∃ root call value edit root',
      parse "let p = f(a: 1 /* c */)" = .ok root ∧ Found root .callExpr call ∧
      Snippet.expression "[\n2\n]".toList = .ok value ∧
      Argument.insertAfterFirst .standard root call ["a"] "l" value false = .ok edit ∧
      edit.applyTo? root = some root' ∧ root'.print = "let p = f(a: 1, l: [\n2\n] /* c */)" ∧
      ⟨.ident, ['a']⟩ ∈ firstLine root.tokens ∧ ⟨.ident, ['a']⟩ ∈ firstLine root'.tokens ∧
      ⟨.blockComment, "/* c */".toList⟩ ∈ firstLine root.tokens ∧
      ⟨.blockComment, "/* c */".toList⟩ ∉ firstLine root'.tokens := by
  have hrun : ((parse "let p = f(a: 1 /* c */)").toOption.bind fun root =>
      (root.get? [0, 6]).bind fun call =>
        (Snippet.expression "[\n2\n]".toList).toOption.bind fun value =>
          (Argument.insertAfterFirst .standard root ⟨[0, 6], call⟩ ["a"] "l" value
            false).toOption.bind fun edit => (edit.applyTo? root).map fun root' =>
              call.isNode .callExpr && root'.print == "let p = f(a: 1, l: [\n2\n] /* c */)" &&
                decide (⟨.ident, ['a']⟩ ∈ firstLine root.tokens) &&
                decide (⟨.ident, ['a']⟩ ∈ firstLine root'.tokens) &&
                decide (⟨.blockComment, "/* c */".toList⟩ ∈ firstLine root.tokens) &&
                decide (⟨.blockComment, "/* c */".toList⟩ ∉ firstLine root'.tokens)) =
      some true := by
    decide +kernel
  simp only [Option.bind_eq_some_iff, Option.map_eq_some_iff, Bool.and_eq_true, beq_iff_eq,
    decide_eq_true_eq] at hrun
  obtain ⟨root, hroot, call, hget, value, hsnippet, edit, hedit, root', happly,
    ⟨⟨⟨⟨⟨hnode, hprint⟩, ha⟩, ha'⟩, hc⟩, hc'⟩⟩ := hrun
  exact ⟨root, ⟨[0, 6], call⟩, value, edit, root', RoundTrip.eq_ok_of_toOption hroot, ⟨hget, hnode⟩,
    RoundTrip.eq_ok_of_toOption hsnippet, RoundTrip.eq_ok_of_toOption hedit, happly, hprint, ha,
    ha', hc, hc'⟩
end PackageManifest.Proofs.Insertions
