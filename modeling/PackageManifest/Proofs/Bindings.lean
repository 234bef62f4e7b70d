import PackageManifest.Proofs.Faithful
import PackageManifest.Proofs.Navigation
import PackageManifest.Proofs.Snippets

/-!
# Expressions alone and in bindings

An expression is read by itself as it is read as the value of a binding. In one direction the value
of any binding of a manifest can be cut out and read alone; in the other an expression that is read
alone can be put behind `let x = `.
-/

namespace PackageManifest.Proofs.Bindings

open Source Grammar Lexing Edits

/-! ## A value read alone -/

theorem parseExpression_print {value : Tree} (h : Readable maxNesting value) :
    parseExpression value.print = .ok value := by
  rw [parseExpression, Tree.print, String.toList_ofList]
  exact Snippets.parseExpressionText_text h.sequence (h.lexed_before apart_nil)

/-- The value of a binding of a parsed manifest is what its text is read as. -/
theorem parseExpression_of_binding {source : String} {root binding value : Tree}
    (h : parse source = .ok root) (hbinding : binding ∈ root.bindings)
    (hvalue : binding.expr? = some value) : parseExpression value.print = .ok value := by
  obtain ⟨children, rfl, hitems, hlexed⟩ := faithful_iff.1 (faithful_of_parse h)
  obtain ⟨hmem, hnode⟩ := List.mem_filter.1 hbinding
  obtain ⟨left, right, hsplit⟩ := List.append_of_mem hmem
  obtain rfl : children = left ++ binding :: right := hsplit
  obtain ⟨b, value', rfl, hbinds, -⟩ := items_rebind hitems hnode
  rw [(binding_expr? hbinds hbinds.expression.isExpr []).2] at hvalue
  obtain rfl := Option.some.inj hvalue
  rw [Tree.tokens_node, tokensList_binding, ← List.cons_append, ← List.append_assoc,
    ← List.append_assoc] at hlexed
  exact parseExpression_print ⟨hbinds.expression, lexed_middle hlexed⟩

/-! ## A value behind a name -/

def front : List Token :=
  [⟨.letKw, ['l', 'e', 't']⟩] ++ oneSpace ++ [⟨.ident, ['x']⟩] ++ oneSpace ++
    [⟨.equals, ['=']⟩] ++ oneSpace

theorem allTrivia_oneSpace : AllTrivia oneSpace := by
  intro t ht
  rw [List.mem_singleton.1 ht]
  rfl

def bindingOf (value : Tree) : Tree := .node .variableDecl (leaves front ++ [value])

theorem expr?_bindingOf {value : Tree} (h : value.isExpr = true) :
    (bindingOf value).expr? = some value := by
  have hfind : (leaves front ++ [value]).find? Tree.isExpr = some value := by
    rw [List.find?_append, List.find?_cons_of_pos h]
    rfl
  exact hfind

theorem bindingTail_front {value : Tree} (h : Expression value) :
    plain (bindingTail (front.tail ++ value.tokens)) = .ok (leaves front.tail ++ [value], []) := by
  have hheaded : Headed value := Sequence.headed (operand_complete maxNesting) h
  have hname : plain? (expectNext? .ident (front.tail ++ value.tokens)) =
      some (oneSpace ++ [⟨.ident, ['x']⟩], front.drop 3 ++ value.tokens) := by
    rw [plain?_expectNext?]
    rfl
  have htype : plain? (typeClause (front.drop 3 ++ value.tokens)) =
      some ([], front.drop 3 ++ value.tokens) := by
    rw [plain?_typeClause]
    rfl
  have hequals : plain? (expectNext? .equals (front.drop 3 ++ value.tokens)) =
      some (oneSpace ++ [⟨.equals, ['=']⟩], oneSpace ++ (value.tokens ++ [])) := by
    rw [plain?_expectNext?, List.append_nil]
    rfl
  have hvalue : plain (expression (afterTrivia (oneSpace ++ (value.tokens ++ [])))) =
      .ok (value, []) :=
    (Change.expression_blank h allTrivia_oneSpace rfl).eq_ok
  have hend : plain? (statementEnd? []) = some ([], []) := by
    rw [plain?_statementEnd?, plain?_expectNext?]
    rfl
  rw [plain_bindingTail, hname]
  simp only [refusing, Except.bind, htype, hequals]
  rw [hvalue]
  simp only [hend, trivia_append allTrivia_oneSpace, hheaded.trivia_append]
  rfl

/-- What follows the name is read as the value, up to the end of the text. -/
theorem items_front {value : Tree} (h : Expression value) :
    items (front ++ value.tokens) = .ok [bindingOf value] := by
  have hitem : plain (item ⟨.letKw, ['l', 'e', 't']⟩ (front.tail ++ value.tokens)) =
      .ok (bindingOf value, []) := by
    rw [plain_item, plain_declaration, bindingTail_front h]
    rfl
  have hnone : items [] = .ok [] := by
    rw [items_eq]
    rfl
  have hafter : afterTrivia (front ++ value.tokens) =
      ⟨.letKw, ['l', 'e', 't']⟩ :: (front.tail ++ value.tokens) := rfl
  rw [items_eq, hafter]
  simp only [hitem, Except.bind, hnone]
  rfl

theorem textOf_front : textOf front = "let x = ".toList := by decide +kernel

theorem lexed_front {value : Tree} (h : Readable maxNesting value) :
    Lexed (front ++ value.tokens) [] := by
  -- the value takes the place of a number behind the last blank
  have htokens : tokens (textOf front ++ ['0']) =
      front.dropLast ++ ⟨.whitespace, [' ']⟩ :: ([⟨.numberLit, ['0']⟩] ++ []) := by
    decide +kernel
  have hzero := @lexed_tokens (textOf front ++ ['0']) (by decide +kernel)
  rw [htokens] at hzero
  have hspliced := hzero.splice (h.stops []) (by decide) (h.lexed_before apart_nil)
  rwa [List.append_nil] at hspliced

/-- An expression is read alone exactly as it is read behind `let x = `. -/
theorem parseExpression_eq_ok_iff_bound (source : String) (value : Tree) :
    parseExpression source = .ok value ↔
      ∃ root binding, parse ("let x = " ++ source) = .ok root ∧ binding ∈ root.bindings ∧
        binding.expr? = some value ∧ value.print = source := by
  constructor
  · intro h
    obtain ⟨hfaults, hexpr⟩ := RoundTrip.parseExpressionText_eq_ok_iff.1 h
    have hexpression := (expression_sound hexpr).1
    have htokens := RoundTrip.tokens_of_parseExpressionText h
    have hlexed := lexed_front ⟨hexpression, [], htokens ▸ lexed_tokens hfaults⟩
    have htext : textOf (front ++ value.tokens) = ("let x = " ++ source).toList := by
      rw [textOf_append, textOf_front, htokens, textOf_tokens, String.toList_append]
    refine ⟨.node .sourceFile [bindingOf value], bindingOf value, ?_, ?_, ?_,
      RoundTrip.print_of_tokens htokens⟩
    · rw [parse, RoundTrip.parseText_eq_ok_iff, ← htext, tokens_of_lexed hlexed,
        faults_of_lexed hlexed]
      exact ⟨rfl, _, items_front hexpression, rfl⟩
    · exact List.mem_filter.2 ⟨List.mem_singleton_self _, rfl⟩
    · exact expr?_bindingOf hexpression.isExpr
  · rintro ⟨root, binding, hroot, hbinding, hvalue, rfl⟩
    exact parseExpression_of_binding hroot hbinding hvalue

end PackageManifest.Proofs.Bindings
