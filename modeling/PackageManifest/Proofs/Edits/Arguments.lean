import PackageManifest.Edit.Argument
import PackageManifest.Proofs.Edits.Arrays
import PackageManifest.Proofs.Edits.Fields

/-!
# Editing the arguments of a call

An inserted argument is a field behind the first one with the label of its anchor, and the list it
is in stays an argument list whose tokens are their own cut.
-/

namespace PackageManifest.Proofs.Edits

open Source Grammar Lexing PackageManifest.Edit

/-! ## The anchor -/

def anchorLabel? (candidates : List String) (fs : List Field) : Option String :=
  candidates.find? fun c => (lookup? c.toList fs).isSome

theorem lookup?_of_anchorLabel? {candidates : List String} {fs : List Field} {c : String}
    (h : anchorLabel? candidates fs = some c) : (lookup? c.toList fs).isSome = true := by
  have := List.find?_some h
  exact this

theorem find?_cases (children : List Tree) (label : List Char) :
    (Argument.find? children label = none ∧
        lookup? label ((children.filter (Tree.isNode .argument)).map field) = none) ∨
      ∃ left a right, children = left ++ a :: right ∧
        Argument.find? children label = some left.length ∧ a.isNode .argument = true ∧
        a.label? = some label ∧
        ∀ g ∈ (left.filter (Tree.isNode .argument)).map field, (g.1 == some label) = false := by
  induction children with
  | nil => exact .inl ⟨rfl, rfl⟩
  | cons t children ih =>
    rw [Argument.find?, List.findIdx?_cons]
    by_cases ht : (t.isNode .argument && t.hasLabel label) = true
    · obtain ⟨hnode, hlabel⟩ := Bool.and_eq_true_iff.1 ht
      rw [if_pos ht]
      exact .inr ⟨[], t, children, rfl, rfl, hnode, beq_iff_eq.1 hlabel, by simp⟩
    · rw [if_neg ht]
      rw [Argument.find?] at ih
      have hfield : t.isNode .argument = true → ((field t).1 == some label) = false := by
        intro hnode
        rw [hnode, Bool.true_and, Bool.not_eq_true] at ht
        exact ht
      rcases ih with ⟨hnone, hlookup⟩ | ⟨left, a, right, rfl, hsome, ha, hlabel, hleft⟩
      · refine .inl ⟨by rw [hnone]; rfl, ?_⟩
        rw [List.filter_cons]
        split
        · rename_i hnode
          rw [List.map_cons, lookup?, List.find?_cons, hfield hnode]
          exact hlookup
        · exact hlookup
      · refine .inr ⟨t :: left, a, right, rfl, by rw [hsome]; rfl, ha, hlabel, ?_⟩
        rw [List.filter_cons]
        split
        · rename_i hnode
          intro g hg
          rcases List.mem_cons.1 hg with rfl | hg
          · exact hfield hnode
          · exact hleft g hg
        · exact hleft

theorem fields_split {left right : List Tree} {a : Tree} (ha : a.isNode .argument = true) :
    ((left ++ a :: right).filter (Tree.isNode .argument)).map field =
      (left.filter (Tree.isNode .argument)).map field ++
        field a :: (right.filter (Tree.isNode .argument)).map field := by
  rw [List.filter_append, List.filter_cons_of_pos ha, List.map_append, List.map_cons]

theorem isLast_split (left right : List Tree) (a : Tree) :
    Argument.isLast (left ++ a :: right) left.length = !right.any (Tree.isNode .argument) := by
  rw [Argument.isLast, List.append_cons, List.drop_left' (by simp)]

theorem findSome?_anchor (candidates : List String) (children : List Tree) :
    (candidates.findSome? fun c => Argument.find? children c.toList) =
      (anchorLabel? candidates ((children.filter (Tree.isNode .argument)).map field)).bind
        fun c => Argument.find? children c.toList := by
  induction candidates with
  | nil => rfl
  | cons c candidates ih =>
    rw [List.findSome?_cons, anchorLabel?, List.find?_cons]
    rcases find?_cases children c.toList with
      ⟨hnone, hlookup⟩ | ⟨left, a, right, rfl, hsome, ha, hlabel, hleft⟩
    · rw [hnone, hlookup]
      exact ih
    · have hlookup : lookup? c.toList
          (((left ++ a :: right).filter (Tree.isNode .argument)).map field) = some (field a) := by
        rw [fields_split ha]
        exact lookup?_eq_some.2 ⟨hlabel, _, _, rfl, hleft⟩
      rw [hsome, hlookup]
      exact hsome.symm

theorem fields_of_argumentList? {call list : Site} (h : call.argumentList? = some list) :
    fields call.tree = list.tree.listArguments.map field := by
  have := call.child?_map (Tree.isNode .argumentList)
  rw [show call.child? (Tree.isNode .argumentList) = some list from h] at this
  rw [fields, Tree.arguments, Tree.argumentList?, ← this]
  rfl

/-! ## The new argument -/

section Insert

variable {budget : Nat} {value : Tree}

theorem element_argument {P : Tree → Prop} (label : List Char) (hvalue : Sequence P value)
    (last : Bool) : Element P .argument (!last) (Argument.argument label value last) := by
  have hlabel : Label .argument (⟨(TokenKind.ofWord? label).getD .ident, label⟩ :: [] ++
      ⟨.colon, [':']⟩ :: [⟨.whitespace, [' ']⟩]) :=
    .some rfl (isNameLike_ofWord? label) allTrivia_nil rfl fun t ht => by
      rw [List.mem_singleton.1 ht]
      rfl
  cases last with
  | true => exact .bare hlabel hvalue
  | false => exact .separated hlabel hvalue allTrivia_nil rfl

theorem field_argument {label : List Char} (hvalue : value.isExpr = true) (last : Bool) :
    field (Argument.argument label value last) = (some label, some value) := by
  have hcolon : (Argument.argument label value last).hasColon = true := by
    simp [Argument.argument, Tree.hasColon, Tree.tokenOf?]
  rw [field, Tree.label?, if_pos hcolon]
  simp [Argument.argument, Tree.firstToken?, Tree.expr?, hvalue]

theorem tokens_argument (label : List Char) (value : Tree) (last : Bool) :
    (Argument.argument label value last).tokens = word label :: ⟨.colon, [':']⟩ ::
      ⟨.whitespace, [' ']⟩ :: (value.tokens ++ if last then [] else [⟨.comma, [',']⟩]) := by
  cases last <;> simp [Argument.argument, word, commaToken]

theorem lexed_argument {label rest : List Char} {last : Bool} (hlabel : IsWord label)
    (hstops : ∀ more, Stops isSpace (value.text ++ more))
    (hvalue : Lexed value.tokens
      (textOf (if last then [] else [⟨.comma, [',']⟩]) ++ rest)) :
    Lexed (Argument.argument label value last).tokens rest := by
  rw [tokens_argument]
  refine ⟨hlabel.cuts (stops_cons.2 (by decide)), cuts_mark (by decide) rfl _, cuts_space ?_,
    lexed_append.2 ⟨hvalue, ?_⟩⟩
  · rw [textOf_append, List.append_assoc]
    exact hstops _
  · cases last with
    | true => trivial
    | false => exact ⟨cuts_comma _, trivial⟩

theorem cutBefore_argument {label : List Char} {last : Bool} {behind : List Token}
    (hlabel : IsWord label) (hvalue : Readable budget value)
    (hbehind : last = true → Follows behind) :
    CutBefore (Argument.argument label value last).tokens behind := by
  intro rest hcut
  refine lexed_argument hlabel hvalue.stops ?_
  cases last with
  | true => exact hvalue.cutBefore (hbehind rfl) rest hcut
  | false => exact hvalue.lexed_cons (by decide)

theorem insertAfterFirst_cases (layout : Layout) (root : Tree) {call list : Site}
    (candidates : List String) (label : String) (ownLine : Bool)
    (hlist : call.argumentList? = some list)
    (hargs : Arguments (Operand budget) .lParen .rParen list.tree)
    (hvalue : Readable budget value) (hword : IsWord label.toList) :
    (anchorLabel? candidates (fields call.tree) = none ∧
        Argument.insertAfterFirst layout root call candidates label value ownLine =
          .error (.missingAnchor label candidates)) ∨
      ∃ c new, anchorLabel? candidates (fields call.tree) = some c ∧
        Argument.insertAfterFirst layout root call candidates label value ownLine =
          .ok ⟨list, new⟩ ∧
        Arguments (Operand budget) .lParen .rParen new ∧
        Relexes list.tree.tokens new.tokens ∧
        new.listArguments.map field =
          insertField c.toList (some label.toList, some value) (fields call.tree) := by
  obtain ⟨children, htree⟩ : ∃ children, list.tree = .node .argumentList children :=
    ⟨_, Tree.eq_node_of_isNode hargs.isNode⟩
  have hfields : fields call.tree = (children.filter (Tree.isNode .argument)).map field := by
    rw [fields_of_argumentList? hlist, htree]
    rfl
  simp only [Argument.insertAfterFirst, hlist, htree, Tree.children_node, findSome?_anchor,
    ← hfields]
  cases hanchor : anchorLabel? candidates (fields call.tree) with
  | none => exact .inl ⟨rfl, rfl⟩
  | some c =>
    right
    rcases find?_cases children c.toList with
      ⟨_, hlookup⟩ | ⟨left, a, right, rfl, hsome, ha, hlabel, hleft⟩
    · have hpresent := lookup?_of_anchorLabel? hanchor
      rw [hfields, hlookup] at hpresent
      cases hpresent
    · rw [htree] at hargs
      obtain ⟨separated, helement, _⟩ := Delimited.item hargs ha
      obtain ⟨hcomma, ts, u, hts, hu⟩ := relexes_withSeparator helement
      have hline : endsLine u = true := by simp [endsLine, hu]
      simp only [Option.bind_some, hsome, modify_split, isLast_split]
      generalize hlead : (if (ownLine || trailingLineComment (left ++ withSeparator a :: right)
        left.length) = true then _ else oneSpace) = lead
      have hleads : LeadsIn u lead := by
        rw [← hlead]
        split
        · exact .inl ⟨_, _, rfl⟩
        · exact .inr ⟨rfl, hu⟩
      refine ⟨c, _, rfl, rfl, ?_, ?_, ?_⟩
      · refine delimited_insertAfter hargs rfl ha hleads.allTrivia ?_
        have := element_argument label.toList hvalue.sequence
          (!right.any (Tree.isNode .argument))
        rwa [Bool.not_not] at this
      · refine Relexes.trans ?_ (relexes_insertAfter hts hline hleads (fun more => ?_) ?_)
        · have := hcomma.around (Tree.tokensList left) (Tree.tokensList right)
          simpa using this
        · rw [tokens_argument, textOf_cons, List.append_assoc]
          exact hword.stops _
        · rintro inline more rfl hinline
          refine cutBefore_argument hword hvalue fun hnone => ?_
          refine follows_of_no_element (delimited_behind hargs ha).1 rfl hinline ?_
          simpa using hnone
      · have hfield : field (withSeparator a) = field a := by
          rw [field, field, label?_withSeparator, expr?_withSeparator]
        have hsep : (withSeparator a).isNode .argument = true := (isNode_withSeparator a _).trans ha
        have hnode := (element_argument label.toList hvalue.sequence
          (!right.any (Tree.isNode .argument))).isNode
        rw [hfields, fields_split ha, insertField_split _ hlabel hleft, Tree.listArguments,
          Tree.children_node, filter_insertAfter left right _ lead hnode]
        simp only [List.filter_append, List.filter_cons_of_pos hsep, List.filter_nil,
          List.map_append, List.map_cons, hfield, field_argument hvalue.sequence.isExpr,
          List.append_assoc, List.cons_append, List.nil_append]

end Insert

/-! ## Another value -/

section Replace

variable {budget : Nat} {left right before after : List Tree} {old new : Tree}

/-- A label ends with its colon or with trivia. -/
theorem label_last {kind : NodeKind} {label : List Token} (h : Label kind label)
    (hne : label ≠ []) :
    ∃ init u, label = init ++ [u] ∧ (u.kind = .colon ∨ u.isTrivia = true) := by
  cases h with
  | none => exact absurd rfl hne
  | @some name colon inner behind _ _ _ hcolon hbehind =>
    rcases List.eq_nil_or_concat behind with rfl | ⟨init, u, rfl⟩
    · exact ⟨name :: inner, colon, rfl, .inl hcolon⟩
    · rw [List.concat_eq_append] at hbehind ⊢
      exact ⟨name :: inner ++ colon :: init, u, by simp, .inr (hbehind u (by simp))⟩

/-- The value of a labelled argument may be replaced. The seams are behind the label and in front of
what follows the value. -/
theorem list_value
    (h : Arguments (Operand budget) .lParen .rParen
      (.node .argumentList (left ++ .node .argument (before ++ old :: after) :: right)))
    (hold : old.isExpr = true) (hlabel : before ≠ []) (hnew : Readable budget new) :
    Arguments (Operand budget) .lParen .rParen
        (.node .argumentList (left ++ .node .argument (before ++ new :: after) :: right)) ∧
      Relexes
        (Tree.tokensList (left ++ .node .argument (before ++ old :: after) :: right))
        (Tree.tokensList (left ++ .node .argument (before ++ new :: after) :: right)) := by
  have hnode := Tree.token?_of_isExpr hold
  obtain ⟨separated, helement, hfill⟩ := Delimited.item h rfl
  refine ⟨hfill _ (helement.value hnode new hnew.sequence), ?_⟩
  have hfollows : Follows (Tree.tokensList after ++ Tree.tokensList right) := by
    obtain ⟨_, ⟨hbare, behind, t, hbehind, ht, rfl⟩ | ⟨hsep, _⟩⟩ := h.split rfl
    · obtain ⟨_, _, _, _, ⟨_, rfl⟩ | ⟨hsep, _⟩⟩ := hbare.around hnode
      · have : Follows (behind ++ [t]) := follows_of_trivia hbehind (by rw [ht]; rfl)
        simpa using this
      · cases hsep
    · obtain ⟨_, _, _, _, ⟨hbare, _⟩ | ⟨_, behind, comma, hbehind, hcomma, rfl⟩⟩ :=
        hsep.around hnode
      · cases hbare
      · have : Follows (behind ++ comma :: Tree.tokensList right) :=
          follows_of_trivia hbehind (by rw [hcomma]; rfl)
        simpa using this
  obtain ⟨hvalue, label, hbefore, rfl, _⟩ := helement.around hnode
  obtain ⟨init, u, rfl, hu⟩ := label_last hbefore (by simpa [leaves] using hlabel)
  obtain ⟨rest, hlexed⟩ := hnew.lexed
  have hseam := relexes_value hu (hvalue.headed (operand_complete budget)) hnew.headed
    (hnew.sequence.ends Operand.ends) hlexed hfollows
  simpa using hseam.append_left (Tree.tokensList left ++ init)

theorem replace?_cases {call list value : Site} {label : List Char}
    (hlist : call.argumentList? = some list)
    (hargs : Arguments (Operand budget) .lParen .rParen list.tree)
    (hvalue : call.argumentValue? label = some value) (hnew : Readable budget new) :
    ∃ more, value.path = list.path ++ more ∧
      Arguments (Operand budget) .lParen .rParen (list.tree.set more new) ∧
      Relexes list.tree.tokens (list.tree.set more new).tokens := by
  obtain ⟨a, ha, hvalue⟩ := Option.bind_eq_some_iff.1 hvalue
  rw [Site.argument?_eq, hlist, Option.bind_some] at ha
  obtain ⟨left, right, htree, _, hargument, hpath⟩ := Site.child?_split hargs.isNode ha
  obtain ⟨hnode, hlabel⟩ := Bool.and_eq_true_iff.1 hargument
  obtain ⟨before, after, hsplit, _, hexpr, hinner⟩ := Site.child?_split hnode hvalue
  rw [hsplit] at htree hlabel
  rw [htree] at hargs ⊢
  have hne : before ≠ [] := by
    rintro rfl
    obtain ⟨_, helement, _⟩ := Delimited.item hargs rfl
    rw [Tree.hasLabel, helement.label?_eq hexpr hexpr] at hlabel
    cases hlabel
  obtain ⟨hargs', hrelexes⟩ := list_value hargs hexpr hne hnew
  refine ⟨[left.length, before.length], by rw [hinner, hpath, List.append_assoc]; rfl, ?_⟩
  have hset : (Source.Tree.node .argumentList (left ++ .node .argument
      (before ++ value.tree :: after) :: right)).set [left.length, before.length] new =
        .node .argumentList (left ++ .node .argument (before ++ new :: after) :: right) := by
    simp [Tree.set, modify_split]
  rw [hset]
  exact ⟨hargs', hrelexes⟩

end Replace

end PackageManifest.Proofs.Edits
