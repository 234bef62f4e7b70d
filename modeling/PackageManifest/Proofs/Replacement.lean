import PackageManifest.Proofs.Rereading

/-!
# Replacing the value of an argument

Main statement: `replace?_applies`. The value of an argument makes way for another expression of the
same kind, and nothing else of the manifest changes. For a value of another kind there is an edit as
well, but it cannot be applied (`replace?_refuses`).
-/

namespace PackageManifest.Proofs.Replacement

open Source Grammar Edits Revisions PackageManifest.Edit

/-! ## The argument with a label -/

section Lookup

variable {budget : Nat} {call : Site} {label : List Char}

theorem exists_argumentValue {list : Site} (hlist : call.argumentList? = some list)
    (hargs : Arguments (Operand budget) .lParen .rParen list.tree)
    (h : call.tree.arguments.any (Tree.hasLabel label) = true) :
    ∃ old left name behind right, call.argumentValue? label = some old ∧
      list.tree = .node .argumentList
        (left ++ .node .argument (leaves name ++ old.tree :: leaves behind) :: right) ∧
      (∀ b ∈ left, (b.isNode .argument && b.hasLabel label) = false) ∧
      old.tree.isExpr = true ∧ old.path = list.path ++ [left.length, name.length] := by
  obtain ⟨a, hargument⟩ : ∃ a, call.argument? label = some a := by
    have hfound := call.argument?_map label
    cases hargument : call.argument? label with
    | some a => exact ⟨a, rfl⟩
    | none =>
      rw [hargument, Option.map_none, eq_comm, List.find?_eq_none] at hfound
      obtain ⟨b, hb, hlabel⟩ := List.any_eq_true.1 h
      exact absurd hlabel (hfound b hb)
  have ha := hargument
  rw [Site.argument?_eq, hlist, Option.bind_some] at ha
  obtain ⟨left, right, htree, hleft, hfirst, hpath⟩ := Site.child?_split hargs.isNode ha
  have hnode := (Bool.and_eq_true_iff.1 hfirst).1
  rw [htree] at hargs
  obtain ⟨separated, helement, _⟩ := Delimited.item hargs hnode
  obtain ⟨v, hv, _⟩ := helement.exists_expr?
  obtain ⟨old, hold, rfl⟩ : ∃ old, a.expr? = some old ∧ old.tree = v := by
    rw [Tree.expr?, ← a.child?_map] at hv
    exact Option.map_eq_some_iff.1 hv
  obtain ⟨before, after, hsplit, _, hexpr, hinner⟩ := Site.child?_split hnode hold
  rw [hsplit] at helement
  obtain ⟨_, name, _, rfl, hafter⟩ := helement.around (Tree.token?_of_isExpr hexpr)
  obtain ⟨behind, rfl⟩ : ∃ behind, after = leaves behind := by
    rcases hafter with ⟨_, rfl⟩ | ⟨_, behind, comma, _, _, rfl⟩
    · exact ⟨[], rfl⟩
    · exact ⟨behind ++ [comma], by simp [leaves]⟩
  refine ⟨old, left, name, behind, right, ?_, by rw [htree, hsplit], hleft, hexpr, ?_⟩
  · rw [Site.argumentValue?, hargument]
    exact hold
  · rw [hinner, hpath, List.append_assoc]
    simp [leaves]

end Lookup

/-! ## What is replaced -/

/-- In `root'` the first argument of the call with the label has the value `value`. Its label, what
stands between the label and the value and behind the value, the other arguments and the rest of the
manifest are those of `root`. -/
structure Replaces (root root' : Tree) (call : Site) (label : List Char) (old : Site)
    (value : Tree) : Prop where
  /-- The value stands in the place of the old one, and the manifest differs in that place only. -/
  place : root'.get? old.path = some value ∧ root'.set old.path old.tree = root
  text : ∃ before after, root.text = before ++ old.tree.text ++ after ∧
    root'.text = before ++ value.text ++ after
  argument : ∃ list left name behind right, call.argumentList? = some list ∧
    list.tree = .node .argumentList
      (left ++ .node .argument (leaves name ++ old.tree :: leaves behind) :: right) ∧
    (∀ b ∈ left, (b.isNode .argument && b.hasLabel label) = false) ∧
    root'.get? list.path = some (.node .argumentList
      (left ++ .node .argument (leaves name ++ value :: leaves behind) :: right))
  /-- The other labels and values of the call stay. -/
  fields : ∃ call', root'.get? call.path = some call' ∧
    fields call' = setField label value (Edits.fields call.tree)

theorem replaces_set {budget : Nat} {root value : Tree} {call list old : Site} {label : List Char}
    {left right : List Tree} {name behind : List Token} (hcall : Found root .callExpr call)
    (hiscall : IsCall budget (besides call.tree) call.tree)
    (hlist : call.argumentList? = some list) (hold : call.argumentValue? label = some old)
    (htree : list.tree = .node .argumentList
      (left ++ .node .argument (leaves name ++ old.tree :: leaves behind) :: right))
    (hfirst : ∀ b ∈ left, (b.isNode .argument && b.hasLabel label) = false)
    (hpath : old.path = list.path ++ [left.length, name.length])
    (hvalue : Sequence (Operand budget) value) :
    Replaces root (root.set old.path value) call label old value := by
  have hget := (get?_argumentValue? hcall.get? hold).1
  have hfound := (get?_argumentList? hcall.get? hlist).get?
  obtain ⟨build, path, hleads, hfields⟩ := argumentValue_leads hiscall hold
  refine ⟨⟨Tree.get?_set hget value, Tree.set_set hget value⟩, ?_, ?_, ?_⟩
  · obtain ⟨after, htokens, hset⟩ := Tree.tokens_set hget
    refine ⟨textOf (root.tokensBefore old.path), textOf after, ?_, ?_⟩
    · simp [Tree.text, htokens]
    · simp [Tree.text, hset]
  · refine ⟨list, left, name, behind, right, hlist, htree, hfirst, ?_⟩
    have hname : name.length = (leaves name).length := (List.length_map _).symm
    rw [hpath, Tree.set_append hfound, Tree.get?_set hfound, htree, hname]
    simp [Tree.set, modify_split]
  · refine ⟨build value, ?_, hfields value hvalue⟩
    rw [hleads.path_eq, Tree.set_append hcall.get?, Tree.get?_set hcall.get?, hleads.set_eq]

/-- The value of an argument of a parsed manifest can be replaced exactly by an expression of the
same kind, which changes nothing else. -/
theorem replace?_applies {source : String} {root value : Tree} {call : Site} {text : List Char}
    (hparse : parse source = .ok root) (hcall : Found root .callExpr call) (label : String)
    (hlabel : call.tree.arguments.any (Tree.hasLabel label.toList) = true)
    (hvalue : Snippet.expression text = .ok value) :
    ∃ old, call.argumentValue? label.toList = some old ∧
      Argument.replace? call label value = some ⟨old, value⟩ ∧
      (Edit.applyTo? ⟨old, value⟩ root = none ↔ value.kind ≠ old.tree.kind) ∧
      ∀ root', Edit.applyTo? ⟨old, value⟩ root = some root' →
        Replaces root root' call label.toList old value := by
  have hroot := faithful_of_parse hparse
  obtain ⟨needed, hreadable⟩ := Rereading.readable_of_supplied hroot (.snippet hvalue)
  obtain ⟨room, hroom, hoperand, _⟩ := Rereading.exists_room hroot hcall (.inr rfl) needed
  have hiscall : IsCall room (besides call.tree) call.tree := ⟨hoperand, hcall.isNode, rfl⟩
  obtain ⟨a, ha, _⟩ := List.any_eq_true.1 hlabel
  obtain ⟨list, hlist⟩ := Site.exists_argumentList? (List.ne_nil_of_mem ha)
  obtain ⟨_, _, hleads, _⟩ := argumentList_leads hiscall hlist
  obtain ⟨old, left, name, behind, right, hold, htree, hfirst, _, hpath⟩ :=
    exists_argumentValue hlist hleads.holds hlabel
  refine ⟨old, hold, by rw [Argument.replace?, hold]; rfl, by simp [Edit.applyTo?], ?_⟩
  intro root' happly
  rw [Edit.applyTo?, Option.ite_none_right_eq_some] at happly
  obtain rfl := Option.some.inj happly.2
  exact replaces_set hcall hiscall hlist hold htree hfirst hpath (hreadable.mono hroom).sequence

/-- The second of two arguments with the label stays, as does the trivia before the comma. -/
theorem replace?_applies_first_of_two :
    ∃ root call value old root', parse "let p = f(a: x /* c */, a: y)" = .ok root ∧
      Found root .callExpr call ∧ Snippet.expression ['z'] = .ok value ∧
      Argument.replace? call "a" value = some ⟨old, value⟩ ∧
      Edit.applyTo? ⟨old, value⟩ root = some root' ∧
      root'.print = "let p = f(a: z /* c */, a: y)" ∧
      Replaces root root' call ['a'] old value := by
  have hrun : ((parse "let p = f(a: x /* c */, a: y)").toOption.bind fun root =>
      (root.get? [0, 6]).bind fun call => (Snippet.expression ['z']).toOption.bind fun value =>
        (Argument.replace? ⟨[0, 6], call⟩ "a" value).bind fun edit =>
          (edit.applyTo? root).map fun root' => call.isNode .callExpr &&
            call.arguments.any (Tree.hasLabel ['a']) &&
            root'.print == "let p = f(a: z /* c */, a: y)") = some true := by
    decide +kernel
  simp only [Option.bind_eq_some_iff, Option.map_eq_some_iff, Bool.and_eq_true, beq_iff_eq] at hrun
  obtain ⟨root, hroot, call, hget, value, hsnippet, edit, hedit, root', happly,
    ⟨hnode, hlabel⟩, hprint⟩ := hrun
  have hparse := RoundTrip.eq_ok_of_toOption hroot
  have hvalue := RoundTrip.eq_ok_of_toOption hsnippet
  have hcall : Found root .callExpr ⟨[0, 6], call⟩ := ⟨hget, hnode⟩
  obtain ⟨old, _, hreplace, _, hreplaces⟩ := replace?_applies hparse hcall "a" hlabel hvalue
  obtain rfl := Option.some.inj (hedit.symm.trans hreplace)
  exact ⟨root, ⟨[0, 6], call⟩, value, old, root', hparse, hcall, hvalue, hreplace, happly, hprint,
    hreplaces root' happly⟩

/-- An array literal cannot be put in the place of a string literal. -/
theorem replace?_refuses :
    ∃ root call value edit, parse "let p = Package(name: \"x\")" = .ok root ∧
      Found root .callExpr call ∧ call.tree.arguments.any (Tree.hasLabel "name".toList) = true ∧
      Snippet.expression ['[', ']'] = .ok value ∧
      Argument.replace? call "name" value = some edit ∧ edit.applyTo? root = none := by
  have hrun : ((parse "let p = Package(name: \"x\")").toOption.bind fun root =>
      (root.get? [0, 6]).bind fun call =>
        (Snippet.expression ['[', ']']).toOption.bind fun value =>
          (Argument.replace? ⟨[0, 6], call⟩ "name" value).map fun edit =>
            call.isNode .callExpr && call.arguments.any (Tree.hasLabel "name".toList) &&
              (edit.applyTo? root).isNone) = some true := by
    decide +kernel
  simp only [Option.bind_eq_some_iff, Option.map_eq_some_iff, Bool.and_eq_true,
    Option.isNone_iff_eq_none] at hrun
  obtain ⟨root, hroot, call, hget, value, hsnippet, edit, hedit, ⟨hnode, hlabel⟩, happly⟩ := hrun
  exact ⟨root, ⟨[0, 6], call⟩, value, edit, RoundTrip.eq_ok_of_toOption hroot, ⟨hget, hnode⟩,
    hlabel, RoundTrip.eq_ok_of_toOption hsnippet, hedit, happly⟩

end PackageManifest.Proofs.Replacement
