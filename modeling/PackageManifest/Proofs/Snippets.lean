import PackageManifest.Addition
import PackageManifest.Proofs.Edits.Arguments
import PackageManifest.Proofs.Lexing.Literals
import PackageManifest.Proofs.RoundTrip

/-!
# Generated expressions

Every generated text parses, whatever strings it is made from. The trees are given here, with what
they say when they are read again.
-/

namespace PackageManifest.Proofs.Snippets

open Source Grammar Lexing Edits PackageManifest.Edit

theorem parseExpressionText_text {tree : Tree} (h : Expression tree)
    (hlexed : Lexed tree.tokens []) : parseExpressionText tree.text = .ok tree := by
  rw [RoundTrip.parseExpressionText_eq_ok_iff, Tree.text, tokens_of_lexed hlexed,
    faults_of_lexed hlexed]
  have hread : plain (expression (tree.tokens ++ [])) = .ok (tree, []) := expression_complete h rfl
  rw [List.append_nil] at hread
  exact ⟨rfl, hread⟩

/-! ## Calls of an implicit member -/

def stringExpr (value : List Char) : Tree :=
  .node .stringLiteralExpr [.token ⟨.stringLit, Literal.encode value⟩]

def argumentTrees : List (List Char × List Char) → List Tree
  | [] => []
  | [a] => [Argument.argument a.1 (stringExpr a.2) true]
  | a :: b :: more =>
    Argument.argument a.1 (stringExpr a.2) false :: .token ⟨.whitespace, [' ']⟩ ::
      argumentTrees (b :: more)

def memberCall (name : List Char) (arguments : List (List Char × List Char)) : Tree :=
  .node .callExpr [
    .node .memberAccessExpr [.token ⟨.dot, ['.']⟩, .token (word name)],
    .node .argumentList
      (.token ⟨.lParen, ['(']⟩ :: (argumentTrees arguments ++ [.token ⟨.rParen, [')']⟩]))]

theorem stringExpr_sequence (budget : Nat) (value : List Char) :
    Sequence (Operand (budget + 1)) (stringExpr value) :=
  .single (.primary (.leaf rfl))

theorem elements_argumentTrees (budget : Nat) (arguments : List (List Char × List Char)) :
    Elements (Operand (budget + 1)) .argument .rParen
      (argumentTrees arguments ++ [.token ⟨.rParen, [')']⟩]) := by
  have hblank : AllTrivia [⟨.whitespace, [' ']⟩] := by
    intro t ht
    rw [List.mem_singleton.1 ht]
    rfl
  fun_induction argumentTrees arguments with
  | case1 => exact @Elements.close _ _ _ [] _ allTrivia_nil rfl
  | case2 a =>
    have ha := element_argument a.1 (stringExpr_sequence budget a.2) true
    exact @Elements.last _ _ _ [] [] _ _ allTrivia_nil ha allTrivia_nil rfl
  | case3 a b more ih =>
    have ha := element_argument a.1 (stringExpr_sequence budget a.2) false
    exact @Elements.next _ _ _ [] _ _ allTrivia_nil ha (ih.trivia hblank)

theorem memberCall_operand (budget : Nat) (name : List Char)
    (arguments : List (List Char × List Char)) :
    Operand (budget + 2) (memberCall name arguments) := by
  have hname : isMemberName (word name) = true := by
    rw [isMemberName, word, isNameLike_ofWord?, Bool.true_or]
  have hlist : Arguments (Operand (budget + 1)) .lParen .rParen (.node .argumentList
      (.token ⟨.lParen, ['(']⟩ :: (argumentTrees arguments ++ [.token ⟨.rParen, [')']⟩]))) :=
    .intro rfl (elements_argumentTrees budget arguments)
  exact .apply (.primary (.member rfl hname)) rfl
    (@Application.call _ _ [] _ allTrivia_nil rfl hlist)

/-! ## Their tokens -/

theorem lexed_stringArgument {label value rest : List Char} (hlabel : IsWord label) (last : Bool)
    (hrest : last = true → Stops (· == '"') rest) :
    Lexed (Argument.argument label (stringExpr value) last).tokens rest := by
  refine lexed_argument hlabel (fun more => ?_) ⟨cuts_encode value ?_, trivial⟩
  · have hquote : Stops isSpace (Literal.encode value ++ more) := stops_cons.2 (by decide)
    simpa [stringExpr, Tree.text] using hquote
  · cases last with
    | true => exact hrest rfl
    | false => exact stops_cons.2 (by decide)

theorem lexed_argumentTrees {arguments : List (List Char × List Char)}
    (h : ∀ a ∈ arguments, IsWord a.1) (rest : List Char) :
    Lexed (Tree.tokensList (argumentTrees arguments) ++ [⟨.rParen, [')']⟩]) rest := by
  have hclose : ∀ rest, Cuts ⟨.rParen, [')']⟩ rest := cuts_mark (by decide) rfl
  fun_induction argumentTrees arguments with
  | case1 => exact ⟨hclose _, trivial⟩
  | case2 a =>
    rw [Tree.tokensList_cons, Tree.tokensList_nil, List.append_nil]
    refine lexed_append.2 ⟨lexed_stringArgument (h a (by simp)) true fun _ => ?_, hclose _, trivial⟩
    exact stops_cons.2 (by decide)
  | case3 a b more ih =>
    have hmore := ih fun c hc => h c (List.mem_cons_of_mem _ hc)
    rw [Tree.tokensList_cons, Tree.tokensList_cons, List.append_assoc]
    refine lexed_append.2 ⟨lexed_stringArgument (h a (by simp)) false nofun, ?_, hmore⟩
    refine cuts_space ?_
    obtain ⟨behind, htokens⟩ : ∃ behind,
        Tree.tokensList (argumentTrees (b :: more)) = word b.1 :: behind := by
      cases more <;> exact ⟨_, rfl⟩
    rw [htokens]
    change Stops isSpace (textOf (word b.1 :: (behind ++ _)) ++ rest)
    rw [textOf_cons, List.append_assoc]
    exact (h b (by simp)).stops _

theorem memberCall_free {name : List Char} {arguments : List (List Char × List Char)}
    (hname : IsWord name) (hpoint : name.head? ≠ some '.') (h : ∀ a ∈ arguments, IsWord a.1) :
    Free (memberCall name arguments).tokens := by
  have htokens : (memberCall name arguments).tokens =
      ⟨.dot, ['.']⟩ :: word name :: ⟨.lParen, ['(']⟩ ::
        (Tree.tokensList (argumentTrees arguments) ++ [⟨.rParen, [')']⟩]) := by
    simp [memberCall]
  rw [htokens]
  refine fun rest => ⟨?_, ?_, ?_, lexed_argumentTrees h rest⟩
  · have hdot : Cuts ⟨.dot, ['.']⟩ [] := cuts_iff.2 ⟨'.', [], rfl, by decide⟩
    refine hdot.of_fits ?_
    cases hcs : name with
    | nil => exact absurd hcs hname.text_ne_nil
    | cons c cs =>
      rw [hcs] at hpoint
      exact stops_cons.2 (by simpa using hpoint)
  · exact hname.cuts (stops_cons.2 (by decide))
  · exact cuts_mark (by decide) rfl _

/-! ## What they say -/

section Views

variable {name : List Char} {arguments : List (List Char × List Char)}

theorem fields_argumentTrees :
    ((argumentTrees arguments).filter (Tree.isNode .argument)).map field =
      arguments.map fun a => (some a.1, some (stringExpr a.2)) := by
  have hfield (a : List Char × List Char) (last : Bool) :
      field (Argument.argument a.1 (stringExpr a.2) last) = (some a.1, some (stringExpr a.2)) :=
    field_argument rfl last
  fun_induction argumentTrees arguments with
  | case1 => rfl
  | case2 a =>
    rw [List.filter_cons_of_pos rfl, List.filter_nil, List.map_cons, hfield]
    rfl
  | case3 a b more ih =>
    rw [List.filter_cons_of_pos rfl, List.filter_cons_of_neg (by simp), List.map_cons, hfield, ih]
    rfl

theorem fields_memberCall :
    fields (memberCall name arguments) =
      arguments.map fun a => (some a.1, some (stringExpr a.2)) := by
  have hlist : fields (memberCall name arguments) =
      ((argumentTrees arguments ++ [Tree.token ⟨.rParen, [')']⟩]).filter
        (Tree.isNode .argument)).map field := rfl
  rw [hlist, List.filter_append, List.filter_cons_of_neg (by simp), List.filter_nil,
    List.append_nil, fields_argumentTrees]

theorem isMemberCall_memberCall : (memberCall name arguments).isMemberCall name = true := by
  have hword : (word name).kind.isNameLike = true := isNameLike_ofWord? name
  have hexpr : (memberCall name arguments).expr? =
      some (.node .memberAccessExpr [.token ⟨.dot, ['.']⟩, .token (word name)]) := rfl
  have hmember : (Source.Tree.node .memberAccessExpr
      [.token ⟨.dot, ['.']⟩, .token (word name)]).memberName? = some name := by
    change Option.map Token.text (List.find? (fun u => u.kind.isNameLike || u.kind == .numberLit)
      [⟨.dot, ['.']⟩, word name]) = some name
    rw [List.find?_cons_of_neg (by decide), List.find?_cons_of_pos (by simp [hword])]
    rfl
  rw [Tree.isMemberCall, hexpr]
  simp only [hmember, beq_self_eq_true]
  rfl

theorem stringArgument?_memberCall (label : List Char) :
    (memberCall name arguments).stringArgument? label =
      (arguments.find? fun a => a.1 == label).map Prod.snd := by
  have hvalue (value : List Char) : (stringExpr value).stringValue? = some value :=
    decode?_encode value
  have hlookup : lookup? label (arguments.map fun a => (some a.1, some (stringExpr a.2))) =
      (arguments.find? fun a => a.1 == label).map fun a => (some a.1, some (stringExpr a.2)) := by
    rw [lookup?, List.find?_map]
    rfl
  rw [Tree.stringArgument?, argumentValue?_field, fields_memberCall, hlookup]
  cases arguments.find? fun a => a.1 == label with
  | none => rfl
  | some a => exact hvalue a.2

end Views

/-! ## Their texts -/

theorem textOf_argumentTrees (arguments : List (List Char × List Char)) :
    textOf (Tree.tokensList (argumentTrees arguments)) =
      [',', ' '].intercalate
        (arguments.map fun a => a.1 ++ [':', ' '] ++ Literal.encode a.2) := by
  have hargument (a : List Char × List Char) (last : Bool) :
      textOf (Argument.argument a.1 (stringExpr a.2) last).tokens =
        a.1 ++ [':', ' '] ++ Literal.encode a.2 ++ if last then [] else [','] := by
    cases last <;> simp [Argument.argument, stringExpr, commaToken]
  fun_induction argumentTrees arguments with
  | case1 => rfl
  | case2 a => simp [hargument, List.intercalate]
  | case3 a b more ih =>
    rw [Tree.tokensList_cons, Tree.tokensList_cons, textOf_append, textOf_append, hargument, ih]
    simp [List.intercalate]

theorem memberCallText_eq (name : String) (arguments : List (String × String)) :
    Snippet.memberCallText name arguments =
      (memberCall name.toList (arguments.map fun a => (a.1.toList, a.2.toList))).text := by
  rw [Snippet.memberCallText, Tree.text, memberCall]
  simp [textOf_argumentTrees, word, Snippet.literal, Function.comp_def]

/-! ## References -/

def packageTree (d : Dependency) : Tree :=
  memberCall "package".toList
    [("name".toList, d.identifier.toList), ("url".toList, d.url.toList),
      (d.requirement.label.toList, d.requirement.value.toList)]

def productTree (product package : String) : Tree :=
  memberCall "product".toList
    [("name".toList, product.toList), ("package".toList, package.toList)]

def emptyArrayTree : Tree :=
  .node .arrayExpr [.token ⟨.lBracket, ['[']⟩, .token ⟨.rBracket, [']']⟩]

theorem isWord_name : IsWord "name".toList := cuts_iff.2 ⟨'n', _, rfl, by decide⟩

theorem isWord_package : IsWord "package".toList := cuts_iff.2 ⟨'p', _, rfl, by decide⟩

theorem isWord_url : IsWord "url".toList := cuts_iff.2 ⟨'u', _, rfl, by decide⟩

theorem isWord_requirement (r : Requirement) : IsWord r.label.toList := by
  cases r with
  | version value =>
    change IsWord "from".toList
    exact cuts_iff.2 ⟨'f', _, rfl, by decide⟩
  | branch value =>
    change IsWord "branch".toList
    exact cuts_iff.2 ⟨'b', _, rfl, by decide⟩

theorem packageTree_free (d : Dependency) : Free (packageTree d).tokens := by
  refine memberCall_free isWord_package (by decide) fun a ha => ?_
  simp only [List.mem_cons, List.not_mem_nil, or_false] at ha
  rcases ha with rfl | rfl | rfl
  · exact isWord_name
  · exact isWord_url
  · exact isWord_requirement d.requirement

theorem productTree_free (product package : String) :
    Free (productTree product package).tokens := by
  refine memberCall_free (cuts_iff.2 ⟨'p', _, rfl, by decide⟩) (by decide) fun a ha => ?_
  simp only [List.mem_cons, List.not_mem_nil, or_false] at ha
  rcases ha with rfl | rfl
  · exact isWord_name
  · exact isWord_package

theorem expression_memberCall {name : List Char} {arguments : List (List Char × List Char)}
    (h : Free (memberCall name arguments).tokens) :
    Snippet.expression (memberCall name arguments).text = .ok (memberCall name arguments) := by
  have hexpr : Expression (memberCall name arguments) := .single (memberCall_operand 254 _ _)
  rw [Snippet.expression, parseExpressionText_text hexpr (h [])]

/-- The declaration of a dependency always parses. -/
theorem packageReference_eq (d : Dependency) :
    Snippet.packageReference d = .ok (packageTree d) := by
  rw [Snippet.packageReference, Snippet.packageText, memberCallText_eq]
  exact expression_memberCall (packageTree_free d)

theorem productReference_eq (product package : String) :
    Snippet.productReference product package = .ok (productTree product package) := by
  rw [Snippet.productReference, Snippet.productText, memberCallText_eq]
  exact expression_memberCall (productTree_free product package)

theorem declaredName?_packageTree (d : Dependency) :
    Addition.declaredName? d.url (packageTree d) = some d.identifier := by
  have hcall : (packageTree d).isMemberCall "package".toList = true := isMemberCall_memberCall
  have hurl : (packageTree d).stringArgument? "url".toList = some d.url.toList :=
    stringArgument?_memberCall _
  have hname : (packageTree d).stringArgument? "name".toList = some d.identifier.toList :=
    stringArgument?_memberCall _
  simp only [Addition.declaredName?, if_pos hcall, hurl, hname, if_true, Option.getD_some]
  rw [String.ofList_toList]

theorem usesProduct_productTree (product package : String) :
    Addition.usesProduct product package (productTree product package) = true := by
  have hcall : (productTree product package).isMemberCall "product".toList = true :=
    isMemberCall_memberCall
  have hname : (productTree product package).stringArgument? "name".toList = some product.toList :=
    stringArgument?_memberCall _
  have hpackage : (productTree product package).stringArgument? "package".toList =
      some package.toList := stringArgument?_memberCall _
  rw [Addition.usesProduct, hcall, hname, hpackage, beq_self_eq_true, beq_self_eq_true]
  rfl

theorem emptyArrayTree_literal (budget : Nat) :
    ArrayLiteral (Operand budget) emptyArrayTree :=
  .intro rfl (@Elements.close _ _ _ [] _ allTrivia_nil rfl)

theorem emptyArrayTree_lexed : Lexed emptyArrayTree.tokens [] :=
  ⟨cuts_mark (by decide) rfl _, cuts_mark (by decide) rfl _, trivial⟩

theorem emptyArray_eq : Snippet.emptyArray = .ok emptyArrayTree := by
  have hexpr : Expression emptyArrayTree := (emptyArrayTree_literal 255).sequence
  have htext : ['[', ']'] = emptyArrayTree.text := rfl
  rw [Snippet.emptyArray, Snippet.expression, htext,
    parseExpressionText_text hexpr emptyArrayTree_lexed]

theorem isWord_dependencies : IsWord Addition.dependenciesLabel.toList := by
  change IsWord "dependencies".toList
  exact cuts_iff.2 ⟨'d', _, rfl, by decide⟩

end PackageManifest.Proofs.Snippets
