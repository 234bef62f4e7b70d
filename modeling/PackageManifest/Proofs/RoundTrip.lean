import PackageManifest.Proofs.Grammar.Statements
import PackageManifest.Proofs.Lexing.Lexed

/-!
# A parsed tree prints its text

Main statement: `print_of_parse`, for manifests and for single expressions.
-/

namespace PackageManifest.Proofs.RoundTrip

open Source Grammar Lexing

theorem parseText_eq_ok_iff {input : List Char} {tree : Tree} :
    parseText input = .ok tree ↔
      faults input = [] ∧ ∃ children, items (tokens input) = .ok children ∧
        tree = .node .sourceFile children := by
  unfold parseText
  cases faults input with
  | cons fault more => simp
  | nil =>
    simp only [parseTokens, true_and]
    cases items (tokens input) with
    | error e => simp
    | ok children => simp [eq_comm]

theorem parseExpressionText_eq_ok_iff {input : List Char} {tree : Tree} :
    parseExpressionText input = .ok tree ↔
      faults input = [] ∧ plain (expression (tokens input)) = .ok (tree, []) := by
  unfold parseExpressionText
  cases faults input with
  | cons fault more => simp
  | nil =>
    simp only [true_and]
    cases expression (tokens input) with
    | error e => cases e <;> simp
    | ok p =>
      obtain ⟨value, rest, shorter⟩ := p
      cases rest <;> simp

theorem tokens_of_parseText {input : List Char} {tree : Tree} (h : parseText input = .ok tree) :
    tree.tokens = tokens input := by
  obtain ⟨_, children, hitems, rfl⟩ := parseText_eq_ok_iff.1 h
  exact items_consumes hitems

theorem tokens_of_parseExpressionText {input : List Char} {tree : Tree}
    (h : parseExpressionText input = .ok tree) : tree.tokens = tokens input := by
  obtain ⟨_, hexpr⟩ := parseExpressionText_eq_ok_iff.1 h
  obtain ⟨_, htokens, _⟩ := expression_sound hexpr
  rw [htokens, List.append_nil]

theorem print_of_tokens {source : String} {tree : Tree} (h : tree.tokens = tokens source.toList) :
    tree.print = source := by
  rw [Tree.print, Tree.text, h, textOf_tokens, String.ofList_toList]

theorem exists_of_isOk {ε α : Type} {x : Except ε α} (h : x.isOk = true) : ∃ a, x = .ok a := by
  cases x with
  | ok a => exact ⟨a, rfl⟩
  | error e => cases h

theorem eq_ok_of_toOption {ε α : Type} {x : Except ε α} {a : α} (h : x.toOption = some a) :
    x = .ok a := by
  cases x with
  | ok b => exact congrArg _ (Option.some.inj h)
  | error e => cases h

/-- Printing undoes parsing, of a manifest and of an expression. -/
theorem print_of_parse :
    (∀ (source : String) (tree : Tree), parse source = .ok tree → tree.print = source) ∧
      ∀ (source : String) (tree : Tree), parseExpression source = .ok tree →
        tree.print = source := by
  refine ⟨fun source tree h => ?_, fun source tree h => ?_⟩
  · exact print_of_tokens (tokens_of_parseText h)
  · exact print_of_tokens (tokens_of_parseExpressionText h)

/-- A manifest with a comment, a CR LF and a declaration that is kept as a statement, and an
expression with a choice and a block. -/
theorem print_of_parse_manifest_and_choice :
    (∃ tree, parse "let a = f x\r\nlet p = Package(/* */name: \"x\") // end" = .ok tree ∧
      tree.print = "let a = f x\r\nlet p = Package(/* */name: \"x\") // end") ∧
    ∃ tree, parseExpression "a ? .b(c: [1, -2]) \x7b $0 \x7d : d" = .ok tree ∧
      tree.print = "a ? .b(c: [1, -2]) \x7b $0 \x7d : d" := by
  have hmanifest :
      (parse "let a = f x\r\nlet p = Package(/* */name: \"x\") // end").isOk = true := by
    decide +kernel
  have hchoice : (parseExpression "a ? .b(c: [1, -2]) \x7b $0 \x7d : d").isOk = true := by
    decide +kernel
  obtain ⟨manifest, hmanifest⟩ := exists_of_isOk hmanifest
  obtain ⟨choice, hchoice⟩ := exists_of_isOk hchoice
  exact ⟨⟨manifest, hmanifest, print_of_parse.1 _ _ hmanifest⟩,
    choice, hchoice, print_of_parse.2 _ _ hchoice⟩

end PackageManifest.Proofs.RoundTrip
