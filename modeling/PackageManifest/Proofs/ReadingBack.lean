import PackageManifest.Proofs.Snippets

/-!
# What is written is read back

Main statement: `written_reads_back`. Any string can be written as a literal, which is one token,
one expression and reads as the string. A generated call therefore says what it was made from:
each of its arguments, under its label and in its place, is the string that was put there.
-/

namespace PackageManifest.Proofs.ReadingBack

open Source Grammar Lexing Edits Snippets

/-- The arguments of a call: the label of each and the string that it is, if it is one. -/
def stated (call : Tree) : List (Option (List Char) × Option (List Char)) :=
  (fields call).map fun f =>
    (f.1, (f.2.filter (Tree.isNode .stringLiteralExpr)).bind Tree.stringValue?)

/-- A call of an implicit member whose arguments are strings, all of which are found by label. -/
structure Says (call : Tree) (name : List Char) (arguments : List (List Char × List Char)) :
    Prop where
  callee : call.isMemberCall name = true
  stated : stated call = arguments.map fun a => (some a.1, some a.2)
  found : ∀ a ∈ arguments, call.stringArgument? a.1 = some a.2

theorem find?_label {arguments : List (List Char × List Char)} {a : List Char × List Char}
    (h : (arguments.map Prod.fst).Nodup) (ha : a ∈ arguments) :
    (arguments.find? fun b => b.1 == a.1) = some a := by
  induction arguments with
  | nil => cases ha
  | cons b more ih =>
    rw [List.map_cons, List.nodup_cons] at h
    rcases List.mem_cons.1 ha with rfl | ha
    · rw [List.find?_cons_of_pos (by simp)]
    · have hne : b.1 ≠ a.1 := fun heq => h.1 (heq ▸ List.mem_map_of_mem ha)
      rw [List.find?_cons_of_neg (by simpa using hne), ih h.2 ha]

theorem memberCall_says (name : List Char) {arguments : List (List Char × List Char)}
    (h : (arguments.map Prod.fst).Nodup) : Says (memberCall name arguments) name arguments where
  callee := isMemberCall_memberCall
  stated := by
    rw [ReadingBack.stated, fields_memberCall, List.map_map]
    refine List.map_congr_left fun a _ => ?_
    have hnode : (stringExpr a.2).isNode .stringLiteralExpr = true := rfl
    have hvalue : (stringExpr a.2).stringValue? = some a.2 := decode?_encode a.2
    rw [Function.comp_apply, Option.filter_some, if_pos hnode, Option.bind_some, hvalue]
  found a ha := by rw [stringArgument?_memberCall, find?_label h ha, Option.map_some]

/-! ## Literals -/

theorem lexed_literal (s : String) : Lexed [⟨.stringLit, Snippet.literal s⟩] [] :=
  ⟨cuts_encode s.toList (stops_nil _), trivial⟩

theorem textOf_literal (s : String) :
    textOf [⟨.stringLit, Snippet.literal s⟩] = Snippet.literal s := by
  rw [textOf_cons, textOf_nil, List.append_nil]

theorem parseExpression_literal (s : String) :
    parseExpression (String.ofList (Snippet.literal s)) = .ok (stringExpr s.toList) := by
  have hexpr : Expression (stringExpr s.toList) := stringExpr_sequence 255 s.toList
  have hparse := parseExpressionText_text hexpr (lexed_literal s)
  rw [parseExpression, String.toList_ofList]
  rwa [show (stringExpr s.toList).text = Snippet.literal s from textOf_literal s] at hparse

/-! ## Calls -/

theorem packageTree_says (d : Dependency) :
    Says (packageTree d) "package".toList
      [("name".toList, d.identifier.toList), ("url".toList, d.url.toList),
        (d.requirement.label.toList, d.requirement.value.toList)] := by
  refine memberCall_says _ ?_
  change ["name".toList, "url".toList, d.requirement.label.toList].Nodup
  cases d.requirement with
  | version number => rw [Requirement.label]; decide
  | branch line => rw [Requirement.label]; decide

theorem productTree_says (product package : String) :
    Says (productTree product package) "product".toList
      [("name".toList, product.toList), ("package".toList, package.toList)] := by
  refine memberCall_says _ ?_
  change ["name".toList, "package".toList].Nodup
  decide

/-- A string that is written as a literal is one token without a fault and one expression, and it
is read back. So are the strings of a declaration and of a use, both of which always parse. -/
theorem written_reads_back :
    (∀ s : String, tokens (Snippet.literal s) = [⟨.stringLit, Snippet.literal s⟩] ∧
      faults (Snippet.literal s) = [] ∧
      parseExpression (String.ofList (Snippet.literal s)) =
        .ok (.node .stringLiteralExpr [.token ⟨.stringLit, Snippet.literal s⟩]) ∧
      Literal.decode? (Snippet.literal s) = some s.toList) ∧
    (∀ d, ∃ call, Snippet.packageReference d = .ok call ∧
      Says call "package".toList
        [("name".toList, d.identifier.toList), ("url".toList, d.url.toList),
          (d.requirement.label.toList, d.requirement.value.toList)]) ∧
    ∀ product package, ∃ call, Snippet.productReference product package = .ok call ∧
      Says call "product".toList
        [("name".toList, product.toList), ("package".toList, package.toList)] := by
  refine ⟨fun s => ⟨?_, ?_, parseExpression_literal s, decode?_encode s.toList⟩,
    fun d => ⟨_, packageReference_eq d, packageTree_says d⟩,
    fun product package => ⟨_, productReference_eq product package, productTree_says _ _⟩⟩
  · have htokens := tokens_of_lexed (lexed_literal s)
    rwa [textOf_literal] at htokens
  · have hfaults := faults_of_lexed (lexed_literal s)
    rwa [textOf_literal] at hfaults

end PackageManifest.Proofs.ReadingBack
