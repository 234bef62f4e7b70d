import PackageManifest.Proofs.Lexing.LineBreaks
import PackageManifest.Proofs.Splicing
import PackageManifest.Source.Trivia

/-!
# The indentation of a line

Main statement: `lineIndentation_longest`. The line of a token is read off the tokens before it,
from the last of them back to one with a line break inside. What is found is the text between the
last line break of the whole text and the token (`lineBefore_eq`).
-/

namespace PackageManifest.Proofs.Indentation

open Source Lexing

/-- Up to the byte at `offset`, the line that holds it is `line` and starts at `start`, which is
the start of the text or directly behind a line break. -/
structure LineUpTo (text : String) (offset start : Nat) (line : List Char) : Prop where
  le : start ≤ offset
  slice : text.toByteArray.extract start offset = (String.ofList line).toByteArray
  unbroken : ∀ c ∈ line, c ≠ '\n' ∧ c ≠ '\r'
  first : start = 0 ∨ ∃ before c, (c = '\n' ∨ c = '\r') ∧
    text.toByteArray.extract 0 start = (String.ofList (before ++ [c])).toByteArray

def lastLine (cs : List Char) : List Char := cs.rtakeWhile fun c => !isBreak c

/-! ## The last line of a text -/

section LastLine

variable {a b : List Char}

theorem isBreak_eq_true {c : Char} : isBreak c = true ↔ c = '\n' ∨ c = '\r' := by
  rw [isBreak, Bool.or_eq_true, beq_iff_eq, beq_iff_eq]

theorem afterBreak?_eq (cs : List Char) :
    afterBreak? cs = if cs.any isBreak then some (lastLine cs) else none := by
  have hgoesOn : (fun c : Char => c != '\n' && c != '\r') = fun c => !isBreak c := by
    funext c
    rw [isBreak, Bool.not_or]
    rfl
  rw [afterBreak?, hgoesOn]
  rfl

theorem lastLine_of_oneLine (h : OneLine b) : lastLine (a ++ b) = lastLine a ++ b := by
  rw [lastLine, List.rtakeWhile, List.reverse_append, List.takeWhile_append_of_pos,
    List.reverse_append, List.reverse_reverse, lastLine, List.rtakeWhile]
  intro c hc
  rw [h c (List.mem_reverse.1 hc), Bool.not_false]

theorem lastLine_of_break (h : b.any isBreak = true) : lastLine (a ++ b) = lastLine b := by
  obtain ⟨c, hc, hbreak⟩ := List.any_eq_true.1 h
  rw [lastLine, List.rtakeWhile, List.reverse_append, List.takeWhile_append, if_neg, lastLine,
    List.rtakeWhile]
  intro hall
  have hgoesOn := List.takeWhile_eq_self_iff.1
    ((List.takeWhile_prefix _).eq_of_length hall) c (List.mem_reverse.2 hc)
  simp [hbreak] at hgoesOn

/-- The tokens are passed from the last one on, and their text is cut at its last line break. -/
theorem lineBefore_eq (ts : List Token) : lineBefore ts = lastLine (textOf ts.reverse) := by
  induction ts with
  | nil => rfl
  | cons t ts ih =>
    rw [lineBefore, afterBreak?_eq, List.reverse_cons, textOf_append, textOf_cons, textOf_nil,
      List.append_nil]
    by_cases hbreak : t.text.any isBreak = true
    · rw [if_pos hbreak, lastLine_of_break hbreak]
    · rw [if_neg hbreak, ih, lastLine_of_oneLine]
      intro c hc
      rw [Bool.not_eq_true, List.any_eq_false] at hbreak
      exact Bool.eq_false_iff.2 (hbreak c hc)

theorem lineUpTo_lastLine (before after : List Char) : ∃ start,
    LineUpTo (String.ofList (before ++ after)) (Text.size before) start (lastLine before) := by
  let front := before.rdropWhile fun c => !isBreak c
  have hbefore : front ++ lastLine before = before := List.rdropWhile_append_rtakeWhile
  have hsize : Text.size before = Text.size front + Text.size (lastLine before) := by
    rw [← Text.size_append, hbefore]
  refine ⟨Text.size front, ?_, ?_, fun c hc => ?_, ?_⟩
  · omega
  · have hslice := extract_size front (lastLine before) after
    rwa [hbefore, ← hsize] at hslice
  · have hbreak := List.mem_rtakeWhile_imp hc
    rwa [Bool.not_eq_true', ← Bool.not_eq_true, isBreak_eq_true, not_or] at hbreak
  · rcases rdropWhile_cases (fun c => !isBreak c) before with hnil | ⟨first, c, hc, hfront⟩
    · exact .inl (by rw [show front = [] from hnil, Text.size_nil])
    · rw [Bool.not_eq_false', isBreak_eq_true] at hc
      refine .inr ⟨first, c, hc, ?_⟩
      have hslice := @Splicing.extract_before front (lastLine before ++ after)
      rw [← List.append_assoc, hbefore] at hslice
      rw [← hfront]
      exact hslice

end LastLine

/-! ## The line of a token -/

theorem span_token (root : Tree) (path : List Nat) (t : Token) :
    Site.span root ⟨path, .token t⟩ =
      ⟨Text.size (textOf (root.tokensBefore path)),
        Text.size (textOf (root.tokensBefore path)) + Text.size t.text⟩ := by
  rw [Site.span, Tree.size, Tree.text, Tree.tokens_token, textOf_cons, textOf_nil, List.append_nil]

/-- The indentation is the longest run of blanks that the last line starts with. -/
theorem lineIndentation_append (before : List Token) : ∃ rest,
    lineIndentation before ++ rest = lastLine (textOf before) ∧
      (∀ c ∈ lineIndentation before, c = ' ' ∨ c = '\t') ∧
      ∀ c ∈ rest.head?, c ≠ ' ' ∧ c ≠ '\t' := by
  rw [lineIndentation, lineBefore_eq, List.reverse_reverse]
  refine ⟨(lastLine (textOf before)).dropWhile isIndentChar, List.takeWhile_append_dropWhile,
    fun c hc => ?_, fun c hc => ?_⟩
  · have hblank := List.mem_takeWhile_imp hc
    rwa [isIndentChar, Bool.or_eq_true, beq_iff_eq, beq_iff_eq] at hblank
  · have hstop := List.head?_dropWhile_not isIndentChar (lastLine (textOf before))
    rw [Option.mem_def.1 hc] at hstop
    simpa [isIndentChar] using hstop

/-- The indentation of a token in a tree, parsed or edited, is the longest run of blanks that the
line of the token starts with in the text of the tree, as far as it stands before the token. -/
theorem lineIndentation_longest {root : Tree} {path : List Nat} {t : Token}
    (h : root.get? path = some (.token t)) :
    (∃ after, root.tokens = root.tokensBefore path ++ t :: after) ∧
      root.print.toByteArray.extract (Site.span root ⟨path, .token t⟩).start
        (Site.span root ⟨path, .token t⟩).stop = (String.ofList t.text).toByteArray ∧
      ∃ start rest, LineUpTo root.print (Site.span root ⟨path, .token t⟩).start start
          (lineIndentation (root.tokensBefore path) ++ rest) ∧
        (∀ c ∈ lineIndentation (root.tokensBefore path), c = ' ' ∨ c = '\t') ∧
        ∀ c ∈ rest.head?, c ≠ ' ' ∧ c ≠ '\t' := by
  obtain ⟨after, htokens, -⟩ := Tree.tokens_set h
  rw [Tree.tokens_token, List.append_assoc, List.singleton_append] at htokens
  have htext : root.print =
      String.ofList (textOf (root.tokensBefore path) ++ (t.text ++ textOf after)) := by
    rw [Tree.print, Tree.text, htokens, textOf_append, textOf_cons]
  rw [htext, span_token]
  refine ⟨⟨after, htokens⟩, ?_, ?_⟩
  · rw [← List.append_assoc]
    exact extract_size (textOf (root.tokensBefore path)) t.text (textOf after)
  · obtain ⟨start, hline⟩ :=
      lineUpTo_lastLine (textOf (root.tokensBefore path)) (t.text ++ textOf after)
    obtain ⟨rest, hrest, hblanks⟩ := lineIndentation_append (root.tokensBefore path)
    rw [← hrest] at hline
    exact ⟨start, rest, hline, hblanks⟩

/-- A number behind a comment of two lines, on the second of which a character has two bytes. -/
theorem lineIndentation_longest_comment :
    ∃ root, parse "let a = [/* one\n \té */ 1]" = .ok root ∧
      root.get? [0, 6, 3, 0, 0] = some (.token ⟨.numberLit, ['1']⟩) ∧
      ∃ start rest, LineUpTo root.print 24 start ([' ', '\t'] ++ rest) ∧
        ∀ c ∈ rest.head?, c ≠ ' ' ∧ c ≠ '\t' := by
  have hrun : ((parse "let a = [/* one\n \té */ 1]").toOption.map fun root =>
      root.get? [0, 6, 3, 0, 0] == some (.token ⟨.numberLit, ['1']⟩) &&
        Site.span root ⟨[0, 6, 3, 0, 0], .token ⟨.numberLit, ['1']⟩⟩ == ⟨24, 25⟩ &&
          lineIndentation (root.tokensBefore [0, 6, 3, 0, 0]) == [' ', '\t']) = some true := by
    decide +kernel
  simp only [Option.map_eq_some_iff, Bool.and_eq_true, beq_iff_eq] at hrun
  obtain ⟨root, hroot, ⟨hget, hspan⟩, hindent⟩ := hrun
  obtain ⟨-, -, start, rest, hline, -, hrest⟩ := lineIndentation_longest hget
  rw [hspan, hindent] at hline
  exact ⟨root, RoundTrip.eq_ok_of_toOption hroot, hget, start, rest, hline, hrest⟩

end PackageManifest.Proofs.Indentation
