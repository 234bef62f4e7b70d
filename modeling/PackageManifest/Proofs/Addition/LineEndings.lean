import PackageManifest.Proofs.Addition.Preservation
import PackageManifest.Proofs.Lexing.LineBreaks
import PackageManifest.Proofs.Revisions

/-!
# Line endings of a manifest

Main statement: `addText_lineEndings`. If all lines of a manifest end alike, so do all lines of what
an addition makes of it. The line breaks that are written are of the kind that is found in the
manifest, texts that are given are written without line breaks, and the tokens that were there
already are uniform. Each edit of an addition keeps the line ending (`ended_of_made`), and so does a
run of them.
-/

namespace PackageManifest.Proofs.Addition

open Source Lexing Edits Revisions Snippets PackageManifest.Addition PackageManifest.Edit
open PackageManifest.Edit.Array

/-! ## Tokens of an edited list -/

section Lists

variable {ending : LineEnding} {trees : List Tree} {lead : List Token}

theorem uniform_comma : Uniform ending [','] := .of_oneLine (by decide)

theorem uniformTokens_withSeparator {e : Tree} (h : UniformTokens ending e.tokens) :
    UniformTokens ending (withSeparator e).tokens := by
  cases e with
  | token t => exact h
  | node kind children =>
    rw [withSeparator]
    split
    · exact h
    · simpa [commaToken, uniform_comma] using h

theorem uniformTokens_modify (h : UniformTokens ending (Tree.tokensList trees)) (i : Nat) :
    UniformTokens ending (Tree.tokensList (trees.modify i withSeparator)) := by
  induction trees generalizing i with
  | nil => simp
  | cons t trees ih =>
    rw [Tree.tokensList_cons, uniformTokens_append] at h
    cases i with
    | zero => simpa using ⟨uniformTokens_withSeparator h.1, h.2⟩
    | succ i => simpa using ⟨h.1, ih h.2 i⟩

theorem uniformTokens_insertAfter {n : Tree} (h : UniformTokens ending (Tree.tokensList trees))
    (hlead : UniformTokens ending lead) (hn : UniformTokens ending n.tokens) (i : Nat) :
    UniformTokens ending (Tree.tokensList (insertAfter trees i lead n)) := by
  rw [← List.take_append_drop (i + 1) trees, Tree.tokensList_append, uniformTokens_append] at h
  obtain ⟨hhead, htail⟩ := h
  rw [insertAfter]
  split
  · rw [← List.takeWhile_append_dropWhile (p := isInlineTrivia) (l := trees.drop (i + 1)),
      Tree.tokensList_append, uniformTokens_append] at htail
    simpa [hlead, hn] using ⟨hhead, htail⟩
  · simpa [hlead, hn] using ⟨hhead, htail⟩

theorem uniformTokens_elementLines (hlead : UniformTokens ending lead) {exprs : List Tree}
    (h : ∀ e ∈ exprs, UniformTokens ending e.tokens) :
    UniformTokens ending (Tree.tokensList (elementLines lead exprs)) := by
  fun_induction elementLines lead exprs with
  | case1 => simp
  | case2 expr => simpa [hlead] using h expr (by simp)
  | case3 expr next more ih =>
    obtain ⟨hexpr, hmore⟩ := List.forall_mem_cons.1 h
    simpa [hlead, commaToken, uniform_comma] using ⟨hexpr, ih hmore⟩

end Lists

/-! ## Tokens that are written -/

theorem uniformTokens_newLine (layout : Layout) (level : Nat) :
    UniformTokens layout.lineEnding (layout.newLine level) := by
  rw [Layout.newLine, newlineAndIndent, uniformTokens_cons]
  refine ⟨.text _, ?_⟩
  split
  · exact uniformTokens_nil
  · refine uniformTokens_cons.2 ⟨.of_oneLine fun c hc => ?_, uniformTokens_nil⟩
    rcases eq_of_mem_render hc with rfl | rfl <;> decide

theorem feed_mem_newLine (layout : Layout) (level : Nat) :
    '\n' ∈ textOf (layout.newLine level) := by
  rw [Layout.newLine, newlineAndIndent, textOf_cons]
  refine List.mem_append_left _ ?_
  cases layout.lineEnding <;> decide

/-- In a text that is written as a literal, line breaks are escaped. -/
theorem oneLine_literal (value : String) : OneLine (Snippet.literal value) := by
  have hchar (c : Char) : OneLine (Literal.encodeChar c) := by
    unfold Literal.encodeChar
    split
    · decide
    split
    · decide
    split
    · decide
    split
    · decide
    split
    · decide
    · rename_i hfeed hcarriage _
      simp [isBreak, hfeed, hcarriage]
  simp only [Snippet.literal, Literal.encode, List.cons_append, oneLine_cons, oneLine_append]
  refine ⟨by decide, fun d hd => ?_, by decide⟩
  obtain ⟨c, -, hd⟩ := List.mem_flatMap.1 hd
  exact hchar c d hd

theorem oneLine_intercalate {between : List Char} {texts : List (List Char)}
    (hbetween : OneLine between) (h : ∀ cs ∈ texts, OneLine cs) :
    OneLine (between.intercalate texts) := by
  induction texts with
  | nil => exact oneLine_nil
  | cons cs texts ih =>
    obtain ⟨hcs, hmore⟩ := List.forall_mem_cons.1 h
    cases texts with
    | nil => rwa [List.intercalate_singleton]
    | cons ds texts =>
      rw [List.intercalate_cons_cons, oneLine_append, oneLine_append]
      exact ⟨⟨hcs, hbetween⟩, ih hmore⟩

theorem oneLine_memberCallText {name : String} {arguments : List (String × String)}
    (hname : OneLine name.toList) (hlabels : ∀ a ∈ arguments, OneLine a.1.toList) :
    OneLine (Snippet.memberCallText name arguments) := by
  simp only [Snippet.memberCallText, List.cons_append, oneLine_cons, oneLine_append]
  refine ⟨by decide, ⟨hname, by decide, oneLine_intercalate (by decide) ?_⟩,
    by decide, oneLine_nil⟩
  rw [List.forall_mem_map]
  intro a ha
  simp only [oneLine_append]
  exact ⟨⟨hlabels a ha, by decide⟩, oneLine_literal a.2⟩

theorem text_of_expression {text : List Char} {e : Tree} (h : Snippet.expression text = .ok e) :
    textOf e.tokens = text := by
  unfold Snippet.expression at h
  split at h
  · rename_i hparse
    cases h
    rw [RoundTrip.tokens_of_parseExpressionText hparse, textOf_tokens]
  · cases h

theorem uniformTokens_of_written {ending : LineEnding} {e : Tree} (h : Written e) :
    UniformTokens ending e.tokens := by
  refine uniformTokens_of_oneLine ?_
  cases h with
  | @package d _ h =>
    rw [text_of_expression h]
    refine oneLine_memberCallText (by decide) ?_
    have hlabel : OneLine d.requirement.label.toList := by
      cases d.requirement with
      | version value => exact (by decide : OneLine "from".toList)
      | branch value => exact (by decide : OneLine "branch".toList)
    simp only [List.forall_mem_cons]
    exact ⟨by decide, by decide, hlabel, List.forall_mem_nil _⟩
  | product h =>
    rw [text_of_expression h]
    refine oneLine_memberCallText (by decide) ?_
    simp only [List.forall_mem_cons]
    exact ⟨by decide, by decide, List.forall_mem_nil _⟩
  | array h =>
    rw [text_of_expression h]
    decide

theorem comments_of_written {e : Tree} (h : Written e) : comments e.tokens = [] := by
  cases h with
  | @package d _ h =>
    obtain rfl := Except.ok.inj ((packageReference_eq d).symm.trans h)
    exact (packageTree_fresh 0 d).comments
  | @product product package _ h =>
    obtain rfl := Except.ok.inj ((productReference_eq product package).symm.trans h)
    exact (productTree_fresh 0 product package).comments
  | array h =>
    obtain rfl := Except.ok.inj (emptyArray_eq.symm.trans h)
    rfl

/-! ## One edit -/

/-- The lines of a tree all end alike, and if they end in two characters, there is such an end. -/
structure Ended (ending : LineEnding) (t : Tree) : Prop where
  uniform : UniformTokens ending t.tokens
  feed : ending = .crlf → '\n' ∈ t.text

section Edits

variable {layout : Layout} {t t' : Tree}

theorem uniformTokens_argument {ending : LineEnding} {label : List Char} {value : Tree}
    (hlabel : OneLine label) (hvalue : UniformTokens ending value.tokens)
    (last : Bool) : UniformTokens ending (Argument.argument label value last).tokens := by
  have hcolon : Uniform ending [':'] := .of_oneLine (by decide)
  have hspace : Uniform ending [' '] := .of_oneLine (by decide)
  rw [tokens_argument]
  cases last <;>
    simp [word, Uniform.of_oneLine hlabel, hcolon, hspace, hvalue, uniform_comma]

theorem uniformTokens_appended {site : Site} {expr : Tree} (level : Nat)
    (h : UniformTokens layout.lineEnding site.tree.tokens)
    (hsite : site.tree.isNode .arrayExpr = true)
    (hexpr : UniformTokens layout.lineEnding expr.tokens) :
    UniformTokens layout.lineEnding (append layout site expr level).replacement.tokens := by
  rw [Tree.eq_node_of_isNode hsite, Tree.tokens_node] at h
  refine uniformTokens_insertAfter ?_ (uniformTokens_newLine layout level) (by simpa using hexpr) _
  unfold separated
  split
  · exact h
  · exact uniformTokens_modify h _

theorem uniformTokens_reflow {site : Site} {exprs : List Tree} (level : Nat)
    (h : ∀ e ∈ exprs, UniformTokens layout.lineEnding e.tokens) :
    UniformTokens layout.lineEnding (reflow layout site level exprs).replacement.tokens := by
  have hopen : Uniform layout.lineEnding ['['] := .of_oneLine (by decide)
  have hclose : Uniform layout.lineEnding [']'] := .of_oneLine (by decide)
  rw [tokens_reflow]
  simp [hopen, hclose, uniformTokens_newLine,
    uniformTokens_elementLines (uniformTokens_newLine layout _) h]

/-- An argument that is inserted leaves the tokens that are there, and the new ones are uniform. -/
theorem insertAfterFirst_uniform {call list : Site} {edit : Edit} {value : Tree}
    {candidates : List String} {ownLine : Bool} (hlist : call.argumentList? = some list)
    (hnode : list.tree.isNode .argumentList = true)
    (h : UniformTokens layout.lineEnding list.tree.tokens) (hvalue : Written value)
    (hinsert : Argument.insertAfterFirst layout t call candidates dependenciesLabel value ownLine =
      .ok edit) :
    edit.site = list ∧ UniformTokens layout.lineEnding edit.replacement.tokens ∧
      list.tree.tokens.Sublist edit.replacement.tokens := by
  have hedit := hinsert
  rw [Argument.insertAfterFirst, hlist] at hedit
  simp only at hedit
  split at hedit
  · cases hedit
  · rename_i i _
    cases hedit
    refine ⟨rfl, ?_, ?_⟩
    · rw [Tree.eq_node_of_isNode hnode, Tree.tokens_node] at h
      refine uniformTokens_insertAfter (uniformTokens_modify h i) ?_
        (uniformTokens_argument (by decide) (uniformTokens_of_written hvalue) _) i
      split
      · exact uniformTokens_newLine layout _
      · exact uniformTokens_cons.2 ⟨.of_oneLine (by decide), uniformTokens_nil⟩
    · exact (insertAfterFirst_keeps layout t hlist hnode
        (comments_argument _ (comments_of_written hvalue)) hinsert).whole not_false

theorem uniformTokens_get? {ending : LineEnding} {path : List Nat} {s : Tree}
    (h : UniformTokens ending t.tokens) (hget : t.get? path = some s) :
    UniformTokens ending s.tokens := by
  obtain ⟨after, htokens, -⟩ := Tree.tokens_set hget
  rw [htokens, uniformTokens_append, uniformTokens_append] at h
  exact h.1.2

theorem feed_mem_of_sublist {ts us : List Token} (h : ts.Sublist us) (hfeed : '\n' ∈ textOf ts) :
    '\n' ∈ textOf us :=
  (textOf_sublist h).subset hfeed

/-- A node is replaced by one with uniform tokens, which has a line feed if the old one has one. -/
theorem ended_of_applyTo? {ending : LineEnding} {edit : Edit} (h : Ended ending t)
    (hget : t.get? edit.site.path = some edit.site.tree)
    (hnew : UniformTokens ending edit.replacement.tokens)
    (hfeed : '\n' ∈ textOf edit.site.tree.tokens → '\n' ∈ textOf edit.replacement.tokens)
    (happly : edit.applyTo? t = some t') : Ended ending t' := by
  obtain ⟨after, hold, hset⟩ := Tree.tokens_set hget
  rw [Edit.applyTo?, Option.ite_none_right_eq_some] at happly
  obtain rfl := Option.some.inj happly.2
  obtain ⟨huniform, hbreak⟩ := h
  rw [hold, uniformTokens_append, uniformTokens_append] at huniform
  refine ⟨?_, fun hcrlf => ?_⟩
  · rw [hset, uniformTokens_append, uniformTokens_append]
    exact ⟨⟨huniform.1.1, hnew⟩, huniform.2⟩
  · have hmem := hbreak hcrlf
    rw [Tree.text, hold, textOf_append, textOf_append, List.mem_append, List.mem_append] at hmem
    rw [Tree.text, hset, textOf_append, textOf_append, List.mem_append, List.mem_append]
    exact hmem.imp_left (Or.imp_right hfeed)

theorem ended_of_made {edit : Edit} (hmade : Made layout t edit) (h : Ended layout.lineEnding t)
    (happly : edit.applyTo? t = some t') : Ended layout.lineEnding t' := by
  cases hmade with
  | @append array expr level harray hexpr =>
    have hkeeps := append_keeps layout level harray.isNode (comments_of_written hexpr)
    exact ended_of_applyTo? h harray.get? (uniformTokens_appended level
      (uniformTokens_get? h.uniform harray.get?) harray.isNode (uniformTokens_of_written hexpr))
      (feed_mem_of_sublist (hkeeps.whole not_false)) happly
  | @reflow array exprs level harray hexprs =>
    refine ended_of_applyTo? h harray.get? (uniformTokens_reflow level fun e he => ?_)
      (fun _ => ?_) happly
    · rcases hexprs e he with he | he
      · obtain ⟨path, hget, -⟩ := get?_of_mem_elementExprs harray.get? he
        exact uniformTokens_get? h.uniform hget
      · exact uniformTokens_of_written he
    · -- What was between the brackets may be lost, but new line breaks are written.
      rw [tokens_reflow]
      simp [feed_mem_newLine]
  | @insert call candidates value ownLine _ hcall hvalue hinsert =>
    cases hlist : call.argumentList? with
    | none =>
      rw [Argument.insertAfterFirst, hlist] at hinsert
      cases hinsert
    | some list =>
      have hfound := get?_argumentList? hcall.get? hlist
      obtain ⟨rfl, huniform, hsublist⟩ := insertAfterFirst_uniform hlist hfound.isNode
        (uniformTokens_get? h.uniform hfound.get?) hvalue hinsert
      exact ended_of_applyTo? h hfound.get? huniform (feed_mem_of_sublist hsublist) happly

end Edits

/-! ## An addition -/

theorem ended_of_run {layout : Layout} {t t' : Tree} (hrun : Run layout t t')
    (h : Ended layout.lineEnding t) : Ended layout.lineEnding t' := by
  induction hrun with
  | refl => exact h
  | tail _ hstep ih =>
    obtain ⟨edit, hmade, happly⟩ := hstep
    exact ended_of_made hmade ih happly

theorem add_ended {indent : Option IndentStyle} {root : Tree} {d : Dependency} {o : Outcome}
    (hroot : Faithful root) (hadd : add indent root d = .ok o) {ending : LineEnding}
    (hdetect : LineEnding.detect root.text = ending) (h : Uniform ending root.text)
    (hfeed : ending = .crlf → '\n' ∈ root.text) : Ended ending o.tree := by
  subst hdetect
  obtain ⟨_, _, _, hlexed⟩ := faithful_iff.1 hroot
  exact ended_of_run (run_of_add hadd) ⟨uniformTokens_of_lexed hlexed h, hfeed⟩

/-- If no line of a manifest ends in a carriage return, none does after an addition. If there is a
line break and all of them are pairs of a carriage return and a line feed, this is so after an
addition, too. The dependency may be any, with line breaks in its texts or without. -/
theorem addText_lineEndings {source : String} {root : Tree} (indent : Option IndentStyle)
    (d : Dependency) (hparse : parse source = .ok root) :
    ∃ o, addText indent source d = .ok o ∧
      ('\r' ∉ source.toList → '\r' ∉ o.text.toList) ∧
      ((∃ c ∈ source.toList, isBreak c = true) → Paired source.toList →
        (∃ c ∈ o.text.toList, isBreak c = true) ∧ Paired o.text.toList) := by
  have hroot := faithful_of_parse hparse
  obtain rfl : root.print = source :=
    RoundTrip.print_of_tokens (RoundTrip.tokens_of_parseText hparse)
  obtain ⟨o, hadd, -⟩ := add_faithful indent d hroot
  refine ⟨asText o, addText_print hroot hadd, ?_⟩
  rw [show (asText o).text = o.tree.print from rfl, toList_print, toList_print]
  refine ⟨fun hnone => ?_, fun hbreak hpaired => ?_⟩
  · have hended := add_ended hroot hadd (detect_lf hnone) hnone nofun
    exact hended.uniform.textOf
  · have hfeed := hpaired.feed_mem hbreak
    have hended := add_ended hroot hadd (detect_crlf hpaired hfeed) hpaired fun _ => hfeed
    exact ⟨⟨'\n', hended.feed rfl, rfl⟩, hended.uniform.textOf⟩

/-- A manifest with a pair at the end of its first line, and a location with a line feed. -/
theorem addText_lineEndings_pair :
    ∃ source o, source = "let p = Package(\r\nname: \"x\")" ∧
      addText none source ⟨"a", "https://h/a\n", .version "1", []⟩ = .ok o ∧
      (∃ c ∈ o.text.toList, isBreak c = true) ∧ Paired o.text.toList := by
  have hok : (parse "let p = Package(\r\nname: \"x\")").isOk = true := by decide +kernel
  have hfirst : Uniform .crlf "let p = Package(".toList := .of_oneLine (by decide)
  have hsecond : Uniform .crlf "name: \"x\")".toList := .of_oneLine (by decide)
  have hpaired : Paired "let p = Package(\r\nname: \"x\")".toList :=
    (hfirst.append (.text .crlf)).append hsecond
  obtain ⟨root, hroot⟩ := RoundTrip.exists_of_isOk hok
  obtain ⟨o, hadd, -, hpair⟩ := addText_lineEndings none
    ⟨"a", "https://h/a\n", .version "1", []⟩ hroot
  exact ⟨_, o, rfl, hadd, hpair ⟨'\n', by decide, rfl⟩ hpaired⟩

end PackageManifest.Proofs.Addition
