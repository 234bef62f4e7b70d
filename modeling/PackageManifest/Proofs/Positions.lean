import Mathlib.Data.List.DropRight
import PackageManifest.Proofs.Acceptance
import PackageManifest.Proofs.Grammar.Refusals
import PackageManifest.Proofs.Lexing.Faults
import PackageManifest.Proofs.Lexing.LineBreaks
import PackageManifest.Proofs.Splicing

/-!
# Where a text does not parse

Main statement: `errors_exact`. An error is made from two ends of the text, wherever they were found
(`between_exact`), so all that remains is where they come from: a lexical error is the fault of the
first token that has one, and trouble with a delimiter is found at a delimiter.
-/

namespace PackageManifest.Proofs.Positions

open Source Grammar Lexing

/-- An error names the bytes between two characters of the text, and the line and column at which
they start. -/
structure Exact (source : String) (e : ParseError) : Prop where
  ordered : e.span.start ≤ e.span.stop
  inside : e.span.stop ≤ source.utf8ByteSize
  start : (⟨e.span.start⟩ : String.Pos.Raw).IsValid source
  stop : (⟨e.span.stop⟩ : String.Pos.Raw).IsValid source
  offset : e.offset = e.span.start
  length : e.length = e.span.stop - e.span.start
  place : ∃ above beside : List Char,
    source.toByteArray.extract 0 e.span.start = (String.ofList (above ++ beside)).toByteArray ∧
      (above = [] ∨ ∃ more, above = more ++ ['\n']) ∧ '\n' ∉ beside ∧
        e.line = 1 + (above ++ beside).count '\n' ∧ e.column = 1 + beside.length

/-! ## Lines and columns -/

theorem columnOf_eq (before : List Char) : ∃ above beside, before = above ++ beside ∧
    (above = [] ∨ ∃ more, above = more ++ ['\n']) ∧ '\n' ∉ beside ∧
      Text.columnOf before = 1 + beside.length := by
  refine ⟨before.rdropWhile (· != '\n'), before.rtakeWhile (· != '\n'),
    List.rdropWhile_append_rtakeWhile.symm, ?_, fun hmem => ?_, ?_⟩
  · rcases rdropWhile_cases (· != '\n') before with hnil | ⟨more, c, hc, habove⟩
    · exact .inl hnil
    · obtain rfl : c = '\n' := by simpa using hc
      exact .inr ⟨more, habove⟩
  · have hfeed := List.mem_rtakeWhile_imp hmem
    cases hfeed
  · rw [Text.columnOf, List.rtakeWhile, List.length_reverse, Nat.add_comm]

/-- What stands before the first of two ends of a text determines where an error is. -/
theorem between_eq (cause : Cause) (before middle after : List Char) :
    ParseError.between cause (before ++ (middle ++ after)) (middle ++ after) after =
      ⟨cause, ⟨Text.size before, Text.size (before ++ middle)⟩, Text.lineOf before,
        Text.columnOf before⟩ := by
  have hbefore : (before ++ (middle ++ after)).take
      ((before ++ (middle ++ after)).length - (middle ++ after).length) = before := by
    rw [List.length_append, Nat.add_sub_cancel, List.take_left]
  have hspan : spanBetween (before ++ (middle ++ after)) (middle ++ after) after =
      ⟨Text.size before, Text.size (before ++ middle)⟩ := by
    simp only [spanBetween, Text.size_append, Span.mk.injEq]
    omega
  rw [ParseError.between, hbefore, hspan]

theorem between_exact {input ahead after : List Char} (cause : Cause) (hahead : ahead <:+ input)
    (hafter : after <:+ ahead) :
    Exact (String.ofList input) (.between cause input ahead after) := by
  obtain ⟨middle, rfl⟩ := hafter
  obtain ⟨before, rfl⟩ := hahead
  obtain ⟨above, beside, hsplit, habove, hbeside, hcolumn⟩ := columnOf_eq before
  have hline : Text.lineOf before = 1 + (above ++ beside).count '\n' := by
    rw [← hsplit, Text.lineOf, Nat.add_comm]
  have hslice : (String.ofList (before ++ (middle ++ after))).toByteArray.extract 0
      (Text.size before) = (String.ofList (above ++ beside)).toByteArray := by
    rw [← hsplit]
    exact Splicing.extract_before _
  rw [between_eq]
  refine ⟨?_, ?_, isValid_size before _, ?_, rfl, rfl,
    above, beside, hslice, habove, hbeside, hline, hcolumn⟩
  · rw [Text.size_append]
    exact Nat.le_add_right ..
  · rw [utf8ByteSize_ofList, ← List.append_assoc, Text.size_append _ after]
    exact Nat.le_add_right ..
  · rw [← List.append_assoc]
    exact isValid_size (before ++ middle) after

/-! ## Where errors come from -/

/-- What an error that a text is refused with is made from. -/
inductive Refused (input : List Char) : ParseError → Prop
  | fault {fault : Fault} {more : List Fault} : faults input = fault :: more →
      Refused input (.ofFault input fault)
  | trouble {e : Trouble} : TroubleIn (tokens input) e → Acceptance.Structural e.cause →
      Refused input (.atToken e.cause input e.ahead)
  | notExpression : Refused input (.between (.notExpression input) input input [])

theorem refused_of_parseText {input : List Char} {e : ParseError}
    (h : parseText input = .error e) : Refused input e := by
  unfold parseText at h
  split at h
  · rename_i fault more hfaults
    cases h
    exact .fault hfaults
  · unfold parseTokens at h
    split at h
    · rename_i trouble hitems
      cases h
      exact .trouble (items_trouble hitems) (Acceptance.items_structural hitems)
    · cases h

theorem refused_of_parseExpressionText {input : List Char} {e : ParseError}
    (h : parseExpressionText input = .error e) : Refused input e := by
  unfold parseExpressionText at h
  split at h
  · rename_i fault more hfaults
    cases h
    exact .fault hfaults
  · split at h
    · rename_i ahead hdeep
      cases h
      have htails := expression_tails (tokens input)
      rw [hdeep] at htails
      exact .trouble (troubleIn_tooDeep htails maxNesting) fun _ => Cause.noConfusion
    · cases h
      exact .notExpression
    · split at h
      · cases h
      · cases h
        exact .notExpression

theorem textOf_suffix {ts us : List Token} (h : ts <:+ us) : textOf ts <:+ textOf us := by
  obtain ⟨front, rfl⟩ := h
  exact ⟨textOf front, (textOf_append front ts).symm⟩

theorem Refused.exact {input : List Char} {e : ParseError} (h : Refused input e) :
    Exact (String.ofList input) e := by
  cases h with
  | @fault fault more hfaults =>
    have hmem : fault ∈ faults input := by
      rw [hfaults]
      exact List.mem_cons_self ..
    rw [← (faultsInOrder input).faults, List.mem_map] at hmem
    obtain ⟨x, hx, rfl⟩ := hmem
    obtain ⟨left, right, hsplit, -, hlies⟩ := mem_faultyTokens hx
    rw [List.append_assoc] at hsplit
    exact between_exact _ (hlies.ahead.trans ⟨left, hsplit.symm⟩) hlies.after
  | @trouble trouble htrouble _ =>
    have hahead := textOf_suffix htrouble.ahead
    rw [textOf_tokens] at hahead
    exact between_exact _ hahead (textOf_suffix (List.tail_suffix _))
  | notExpression => exact between_exact _ List.suffix_rfl List.nil_suffix

theorem Refused.lexical {input : List Char} {e : ParseError} (h : Refused input e)
    {cause : FaultCause} (hcause : e.cause = .lexical cause) :
    ∃ p fault more, faultyTokens input = (p, fault) :: more ∧ cause = fault.cause ∧
      e.span = fault.span input := by
  cases h with
  | @fault fault more hfaults =>
    have hmap := (faultsInOrder input).faults
    rw [hfaults] at hmap
    obtain ⟨x, rest, hx, rfl, -⟩ := List.map_eq_cons_iff.1 hmap
    exact ⟨x.1, x.2, rest, hx, (Cause.lexical.inj hcause).symm, rfl⟩
  | trouble _ hstructural => exact absurd hcause (hstructural cause)
  | notExpression => cases hcause

theorem Refused.unbalanced {input : List Char} {e : ParseError} (h : Refused input e)
    (hcause : isUnbalanced e.cause = true) :
    ∃ p ∈ place 0 (tokens input), isDelimiter p.token.kind = true ∧ e.span = p.span := by
  cases h with
  | fault _ => cases hcause
  | @trouble trouble htrouble _ =>
    obtain ⟨t, after, hahead, ht⟩ := htrouble.delimiter hcause
    obtain ⟨front, hfront⟩ := htrouble.ahead
    rw [hahead] at hfront
    refine ⟨_, hfront ▸ mem_place 0 front after t, ht, ?_⟩
    have hsize : Text.size input =
        Text.size (textOf front) + (Text.size t.text + Text.size (textOf after)) := by
      rw [← textOf_tokens input, ← hfront, textOf_append, textOf_cons, Text.size_append,
        Text.size_append]
    simp only [ParseError.atToken, ParseError.between, spanBetween, hahead, List.tail_cons,
      textOf_cons, Text.size_append, hsize, Span.mk.injEq]
    omega
  | notExpression => cases hcause

/-- The place of every error is exact, whatever is refused. A lexical error is that of the first
token at fault, where the faults lie in tokens that follow each other, and an error about a
delimiter covers one. -/
theorem errors_exact (source : String) :
    (∀ e, parse source = .error e ∨ parseExpression source = .error e →
      Exact source e ∧
        (∀ cause, e.cause = .lexical cause →
          ∃ p fault more, faultyTokens source.toList = (p, fault) :: more ∧ cause = fault.cause ∧
            e.span = fault.span source.toList) ∧
        (isUnbalanced e.cause = true →
          ∃ p ∈ place 0 (tokens source.toList),
            isDelimiter p.token.kind = true ∧ e.span = p.span)) ∧
      FaultsInOrder source.toList := by
  refine ⟨fun e he => ?_, faultsInOrder source.toList⟩
  have hrefused : Refused source.toList e :=
    he.elim refused_of_parseText refused_of_parseExpressionText
  have hexact := hrefused.exact
  rw [String.ofList_toList] at hexact
  exact ⟨hexact, fun cause => hrefused.lexical, hrefused.unbalanced⟩

/-- A literal that is never closed, in an interpolation of another one, and a bracket where a
parenthesis is open, both on a second line and behind a character of two bytes. -/
theorem errors_exact_literal_and_bracket :
    (∃ e, parse "let a = 1\n/* é */ \"b\\(\"c" = .error e ∧ e.cause = .lexical .openString ∧
      e.span = ⟨23, 25⟩ ∧ e.line = 2 ∧ e.column = 13 ∧
        Exact "let a = 1\n/* é */ \"b\\(\"c" e ∧
          ∃ p fault more,
            faultyTokens "let a = 1\n/* é */ \"b\\(\"c".toList = (p, fault) :: more ∧
              e.span = fault.span "let a = 1\n/* é */ \"b\\(\"c".toList) ∧
      ∃ e, parse "f(é,\n é]" = .error e ∧ e.cause = .mismatched [']'] ['('] ∧ e.line = 2 ∧
        e.column = 3 ∧ Exact "f(é,\n é]" e ∧
          ∃ p ∈ place 0 (tokens "f(é,\n é]".toList),
            isDelimiter p.token.kind = true ∧ e.span = p.span := by
  have hliteral : parse "let a = 1\n/* é */ \"b\\(\"c" =
      .error ⟨.lexical .openString, ⟨23, 25⟩, 2, 13⟩ := by
    decide +kernel
  have hbracket : parse "f(é,\n é]" = .error ⟨.mismatched [']'] ['('], ⟨9, 10⟩, 2, 3⟩ := by
    decide +kernel
  obtain ⟨hexact, hlexical, -⟩ := (errors_exact _).1 _ (.inl hliteral)
  obtain ⟨p, fault, more, hfaulty, -, hspan⟩ := hlexical _ rfl
  obtain ⟨hexact', -, hunbalanced⟩ := (errors_exact _).1 _ (.inl hbracket)
  exact ⟨⟨_, hliteral, rfl, rfl, rfl, rfl, hexact, p, fault, more, hfaulty, hspan⟩,
    _, hbracket, rfl, rfl, rfl, hexact', hunbalanced rfl⟩

end PackageManifest.Proofs.Positions
