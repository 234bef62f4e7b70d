import Mathlib.Data.List.DropRight
import Mathlib.Data.List.Nodup
import Mathlib.Data.List.Pairwise
import Mathlib.Data.List.TakeWhile
import PackageManifest.Proofs.RoundTrip
import PackageManifest.Source.Trivia

/-!
# Trivia and the tokens it belongs to

Main statement: `trivia_partition`. The trivia before a significant token is found by a walk to the
left and the trivia behind it by a walk to the right, each with its own condition to stop. The two
cut every run of trivia at the same place (`LeadsFrom`), so the significant tokens with what belongs
to them make up the file, up to the first line break behind the last of them.
-/

namespace PackageManifest.Proofs.Surroundings

open Source Grammar

/-- A token with those before it and those after it. -/
abbrev Context := List Token × Token × List Token

/-- The significant tokens of `ts`, in a file in which `before` stands before them. -/
def significantFrom (before ts : List Token) : List Context :=
  (contexts before ts).filter fun c => !c.2.1.isTrivia

def significant (ts : List Token) : List Context := significantFrom [] ts

def block (c : Context) : List Token := leadingTrivia c.1 ++ c.2.1 :: trailingTrivia c.2.2

def lastRun (ts : List Token) : List Token := ts.rtakeWhile Token.isTrivia

/-- The trivia behind the last significant token from its first line break on. -/
def remainder (ts : List Token) : List Token := (lastRun ts).dropWhile fun t => t.kind != .newline

/-- The position `p` is that of trivia before a token or behind it that belongs to the token. -/
def Surrounds (c : Context) (p : Nat) : Prop :=
  (p < c.1.length ∧ c.1.length ≤ p + (leadingTrivia c.1).length) ∨
    (c.1.length < p ∧ p ≤ c.1.length + (trailingTrivia c.2.2).length)

/-! ## Contexts -/

section Contexts

variable {before ts : List Token} {t : Token} {c : Context}

theorem mem_contexts : c ∈ contexts before ts ↔
    ∃ left, c.1 = before ++ left ∧ left ++ c.2.1 :: c.2.2 = ts := by
  induction ts generalizing before with
  | nil => simp [contexts]
  | cons t ts ih =>
    rw [contexts, List.mem_cons, ih]
    constructor
    · rintro (rfl | ⟨left, hleft, rfl⟩)
      · exact ⟨[], (List.append_nil _).symm, rfl⟩
      · exact ⟨t :: left, by rw [hleft, List.append_assoc, List.singleton_append], rfl⟩
    · rintro ⟨left, hleft, hsplit⟩
      obtain ⟨front, u, after⟩ := c
      change front = before ++ left at hleft
      cases left with
      | nil =>
        obtain ⟨rfl, rfl⟩ := List.cons.inj hsplit
        exact .inl (by rw [hleft, List.append_nil])
      | cons v left =>
        obtain ⟨rfl, hmore⟩ := List.cons.inj hsplit
        exact .inr ⟨left, by rw [hleft, List.append_assoc, List.singleton_append], hmore⟩

theorem mem_significant : c ∈ significant ts ↔
    c.1 ++ c.2.1 :: c.2.2 = ts ∧ c.2.1.isTrivia = false := by
  rw [significant, significantFrom, List.mem_filter, mem_contexts, Bool.not_eq_true']
  simp

theorem significantFrom_cons (h : t.isTrivia = false) :
    significantFrom before (t :: ts) = (before, t, ts) :: significantFrom (before ++ [t]) ts := by
  rw [significantFrom, contexts, List.filter_cons, if_pos (by rw [h]; rfl), significantFrom]

theorem significantFrom_append {run : List Token} (h : AllTrivia run) :
    significantFrom before (run ++ ts) = significantFrom (before ++ run) ts := by
  induction run generalizing before with
  | nil => rw [List.nil_append, List.append_nil]
  | cons t run ih =>
    have ht : t.isTrivia = true := h t (List.mem_cons_self ..)
    rw [List.cons_append, significantFrom, contexts, List.filter_cons, if_neg (by simp [ht]),
      ← significantFrom, ih h.tail, List.append_assoc, List.singleton_append]

theorem significantFrom_trivia (h : AllTrivia ts) : significantFrom before ts = [] := by
  have hnil := @significantFrom_append before [] ts h
  rwa [List.append_nil] at hnil

end Contexts

/-! ## Where leading trivia starts -/

/-- Leading trivia starts between `before` and `ts`: at the start of a file, or behind the trailing
trivia of a token. -/
inductive LeadsFrom : List Token → List Token → Prop
  | start {ts : List Token} : LeadsFrom [] ts
  | behind {front inline ts : List Token} {s : Token} : s.isTrivia = false →
      (∀ t ∈ inline, t.isInlineTrivia = true) → (∀ t ∈ ts.head?, t.isInlineTrivia = false) →
      LeadsFrom (front ++ s :: inline) ts

section LeadsFrom

variable {before front inline ts run : List Token} {s : Token}

theorem isTrivia_of_isInlineTrivia {t : Token} (h : t.isInlineTrivia = true) :
    t.isTrivia = true := by
  rw [Token.isInlineTrivia, Bool.and_eq_true] at h
  exact h.1

theorem trivia_of_append {us vs : List Token} (h : AllTrivia us) (hs : s.isTrivia = false) :
    (us.reverse ++ s :: vs).takeWhile Token.isTrivia = us.reverse := by
  rw [List.takeWhile_append_of_pos fun t ht => h t (List.mem_reverse.1 ht),
    List.takeWhile_cons_of_neg (by simp [hs]), List.append_nil]

/-- The trivia at the end of a list is what stands behind its last significant token. -/
theorem lastRun_append (hs : s.isTrivia = false) (h : AllTrivia run) :
    lastRun (front ++ s :: run) = run := by
  rw [lastRun, List.rtakeWhile, List.reverse_append, List.reverse_cons, List.append_assoc,
    List.singleton_append, trivia_of_append h hs, List.reverse_reverse]

theorem leadingTrivia_eq (before : List Token) :
    leadingTrivia before =
      if (lastRun before).length = before.length then lastRun before
      else (lastRun before).dropWhile fun t => t.kind != .newline := rfl

theorem lastRun_suffix (ts : List Token) : lastRun ts <:+ ts :=
  List.rtakeWhile_suffix Token.isTrivia ts

theorem leadingTrivia_suffix (before : List Token) : leadingTrivia before <:+ before := by
  rw [leadingTrivia_eq]
  split
  · exact lastRun_suffix before
  · exact (List.dropWhile_suffix _).trans (lastRun_suffix before)

/-- Trailing trivia has no line break, and trivia that follows it starts with one. -/
theorem dropWhile_inline (hinline : ∀ t ∈ inline, t.isInlineTrivia = true)
    (hrun : AllTrivia run) (hhead : ∀ t ∈ run.head?, t.isInlineTrivia = false) :
    ((inline ++ run).dropWhile fun t => t.kind != .newline) = run := by
  rw [List.dropWhile_append_of_pos]
  · cases run with
    | nil => rfl
    | cons t run =>
      have htrivia : t.isTrivia = true := hrun t (List.mem_cons_self ..)
      have hinline := hhead t rfl
      rw [Token.isInlineTrivia, htrivia, Bool.true_and] at hinline
      exact List.dropWhile_cons_of_neg (by simp [hinline])
  · intro t ht
    have hboth := hinline t ht
    rw [Token.isInlineTrivia, Bool.and_eq_true] at hboth
    exact hboth.2

theorem remainder_append (hs : s.isTrivia = false) (hinline : ∀ t ∈ inline, t.isInlineTrivia = true)
    (hrun : AllTrivia run) (hhead : ∀ t ∈ run.head?, t.isInlineTrivia = false) :
    remainder (front ++ s :: inline ++ run) = run := by
  have htrivia : AllTrivia (inline ++ run) :=
    AllTrivia.append (fun t ht => isTrivia_of_isInlineTrivia (hinline t ht)) hrun
  rw [remainder, List.append_assoc, List.cons_append, lastRun_append hs htrivia,
    dropWhile_inline hinline hrun hhead]

theorem LeadsFrom.leadingTrivia_append (h : LeadsFrom before run) (hrun : AllTrivia run) :
    leadingTrivia (before ++ run) = run := by
  rw [leadingTrivia_eq]
  cases h with
  | start =>
    have hall : lastRun ([] ++ run) = run := List.rtakeWhile_eq_self_iff.2 hrun
    rw [hall, List.nil_append, if_pos rfl]
  | @behind front inline _ s hs hinline hhead =>
    have htrivia : AllTrivia (inline ++ run) :=
      AllTrivia.append (fun t ht => isTrivia_of_isInlineTrivia (hinline t ht)) hrun
    have hlast : lastRun (front ++ s :: inline ++ run) = inline ++ run := by
      rw [List.append_assoc, List.cons_append, lastRun_append hs htrivia]
    rw [if_neg, ← remainder, remainder_append hs hinline hrun hhead]
    rw [hlast]
    simp only [List.length_append, List.length_cons]
    omega

theorem LeadsFrom.remainder_append (h : LeadsFrom before run) (hrun : AllTrivia run)
    (hbefore : before ≠ []) : remainder (before ++ run) = run := by
  cases h with
  | start => exact absurd rfl hbefore
  | behind hs hinline hhead => exact Surroundings.remainder_append hs hinline hrun hhead

theorem allTrivia_trailingTrivia (ts : List Token) : AllTrivia (trailingTrivia ts) :=
  fun _ ht => isTrivia_of_isInlineTrivia (List.mem_takeWhile_imp ht)

/-- Behind a significant token and its trailing trivia, leading trivia starts. -/
theorem leadsFrom_trailing (front : List Token) (hs : s.isTrivia = false) (ts : List Token) :
    LeadsFrom (front ++ s :: trailingTrivia ts) (ts.dropWhile Token.isInlineTrivia) := by
  refine .behind hs (fun t ht => List.mem_takeWhile_imp ht) fun t ht => ?_
  have hhead := List.head?_dropWhile_not Token.isInlineTrivia ts
  rw [Option.mem_def.1 ht] at hhead
  simpa using hhead

theorem LeadsFrom.trivia (h : LeadsFrom before ts) : LeadsFrom before (Source.trivia ts) := by
  cases h with
  | start => exact .start
  | behind hs hinline hstop =>
    refine .behind hs hinline fun t ht => hstop t ?_
    rw [Source.trivia, List.head?_takeWhile] at ht
    exact (Option.mem_filter_iff.1 ht).1

end LeadsFrom

/-! ## The partition -/

def positioned (c : Context) : List (Token × Nat) :=
  (block c).zipIdx (c.1.length - (leadingTrivia c.1).length)

section Blocks

variable {before ts rest : List Token} {t : Token}

theorem positioned_first (hleads : LeadsFrom before ts) (t : Token) (rest : List Token) :
    positioned (before ++ trivia ts, t, rest) =
      (trivia ts ++ t :: trailingTrivia rest).zipIdx before.length := by
  have hlead := hleads.trivia.leadingTrivia_append (allTrivia_trivia ts)
  rw [positioned, block, hlead, List.length_append, Nat.add_sub_cancel]

theorem trailingTrivia_append (rest : List Token) :
    trailingTrivia rest ++ rest.dropWhile Token.isInlineTrivia = rest :=
  List.takeWhile_append_dropWhile

theorem tokens_first (hafter : afterTrivia ts = t :: rest) :
    ts = trivia ts ++ t :: trailingTrivia rest ++ rest.dropWhile Token.isInlineTrivia := by
  calc
    ts = trivia ts ++ t :: rest := eq_of_afterTrivia hafter
    _ = trivia ts ++ t :: (trailingTrivia rest ++ rest.dropWhile Token.isInlineTrivia) := by
      rw [trailingTrivia_append]
    _ = _ := by rw [List.append_assoc, List.cons_append]

theorem significantFrom_first (before : List Token) (hafter : afterTrivia ts = t :: rest) :
    significantFrom before ts = (before ++ trivia ts, t, rest) ::
      significantFrom (before ++ (trivia ts ++ t :: trailingTrivia rest))
        (rest.dropWhile Token.isInlineTrivia) := by
  have hbehind : significantFrom (before ++ trivia ts ++ [t]) rest =
      significantFrom (before ++ trivia ts ++ [t] ++ trailingTrivia rest)
        (rest.dropWhile Token.isInlineTrivia) := by
    rw [← significantFrom_append (allTrivia_trailingTrivia rest), trailingTrivia_append]
  calc
    significantFrom before ts = significantFrom before (trivia ts ++ t :: rest) := by
      rw [← eq_of_afterTrivia hafter]
    _ = (before ++ trivia ts, t, rest) :: significantFrom (before ++ trivia ts ++ [t]) rest := by
      rw [significantFrom_append (allTrivia_trivia ts),
        significantFrom_cons (isTrivia_of_afterTrivia hafter)]
    _ = _ := by
      rw [hbehind]
      simp only [List.append_assoc, List.singleton_append]

/-- From a place on at which leading trivia starts, the blocks stand one behind the other. -/
theorem flatMap_positioned (hleads : LeadsFrom before ts)
    (hsome : ∃ t ∈ before ++ ts, t.isTrivia = false) :
    ∃ front, front ++ remainder (before ++ ts) = ts ∧
      (significantFrom before ts).flatMap positioned = front.zipIdx before.length := by
  induction hn : ts.length using Nat.strongRecOn generalizing before ts with
  | ind n ih =>
    cases hafter : afterTrivia ts with
    | nil =>
      have hall : trivia ts = ts := by
        have hwhole := trivia_append_afterTrivia ts
        rwa [hafter, List.append_nil] at hwhole
      have hts : AllTrivia ts := hall ▸ allTrivia_trivia ts
      have hbefore : before ≠ [] := by
        rintro rfl
        obtain ⟨t, ht, hfalse⟩ := hsome
        rw [hts t ht] at hfalse
        cases hfalse
      refine ⟨[], ?_, ?_⟩
      · rw [List.nil_append, hleads.remainder_append hts hbefore]
      · rw [significantFrom_trivia hts]
        rfl
    | cons t rest =>
      have ht := isTrivia_of_afterTrivia hafter
      have hsplit := tokens_first hafter
      have hnext := leadsFrom_trailing (before ++ trivia ts) ht rest
      rw [List.append_assoc] at hnext
      have hlt : (rest.dropWhile Token.isInlineTrivia).length < n := by
        have hdrop := (List.dropWhile_suffix Token.isInlineTrivia (l := rest)).length_le
        have hrest := length_lt_of_afterTrivia hafter
        omega
      obtain ⟨front, hfront, hblocks⟩ := ih _ hlt hnext ⟨t, by simp, ht⟩ rfl
      rw [List.append_assoc before, ← hsplit] at hfront
      refine ⟨trivia ts ++ t :: trailingTrivia rest ++ front, ?_, ?_⟩
      · rw [List.append_assoc, hfront, ← hsplit]
      · rw [significantFrom_first before hafter, List.zipIdx_append, List.flatMap_cons,
          positioned_first hleads, hblocks, List.length_append]

end Blocks

/-- The blocks of a file follow each other from its start to the remainder. -/
theorem blocks_file {ts : List Token} (hsome : ∃ t ∈ ts, t.isTrivia = false) :
    ∃ front, front ++ remainder ts = ts ∧ (significant ts).flatMap positioned = front.zipIdx :=
  flatMap_positioned .start hsome

theorem flatMap_block {ts : List Token} (hsome : ∃ t ∈ ts, t.isTrivia = false) :
    (significant ts).flatMap block ++ remainder ts = ts := by
  obtain ⟨front, hfront, hblocks⟩ := blocks_file hsome
  have htokens := congrArg (List.map Prod.fst) hblocks
  rw [List.map_flatMap, List.zipIdx_map_fst] at htokens
  simp only [positioned, List.zipIdx_map_fst] at htokens
  rw [htokens, hfront]

theorem textOf_flatMap_block (cs : List Context) :
    textOf (cs.flatMap block) = cs.flatMap fun c =>
      textOf (leadingTrivia c.1) ++ c.2.1.text ++ textOf (trailingTrivia c.2.2) := by
  rw [textOf, List.flatMap_assoc]
  refine List.flatMap_congr fun c _ => ?_
  rw [← textOf, block, textOf_append, textOf_cons, List.append_assoc]

/-- The positions of the blocks are those of the file up to the remainder, each once. -/
theorem flatMap_positions {ts : List Token} (hsome : ∃ t ∈ ts, t.isTrivia = false) :
    ((significant ts).flatMap fun c =>
        List.range' (c.1.length - (leadingTrivia c.1).length) (block c).length) =
      List.range' 0 (ts.length - (remainder ts).length) := by
  obtain ⟨front, hfront, hblocks⟩ := blocks_file hsome
  have hlength := congrArg List.length hfront
  rw [List.length_append] at hlength
  have hpositions := congrArg (List.map Prod.snd) hblocks
  rw [List.map_flatMap, List.zipIdx_map_snd] at hpositions
  simp only [positioned, List.zipIdx_map_snd] at hpositions
  rw [hpositions, ← hlength, Nat.add_sub_cancel]

theorem mem_range'_block {c : Context} {p : Nat} :
    p ∈ List.range' (c.1.length - (leadingTrivia c.1).length) (block c).length ↔
      p = c.1.length ∨ Surrounds c p := by
  have hlead := (leadingTrivia_suffix c.1).length_le
  rw [List.mem_range'_1, block, List.length_append, List.length_cons, Surrounds]
  omega

/-- Trivia before the remainder belongs to one token and to no other. -/
theorem existsUnique_surrounds {ts : List Token} (hsome : ∃ t ∈ ts, t.isTrivia = false) {p : Nat}
    {t : Token} (hp : ts[p]? = some t) (ht : t.isTrivia = true)
    (hbefore : p + (remainder ts).length < ts.length) :
    ∃! c, c ∈ significant ts ∧ Surrounds c p := by
  have hpositions := flatMap_positions hsome
  have hmem : p ∈ List.range' 0 (ts.length - (remainder ts).length) :=
    List.mem_range'_1.2 ⟨Nat.zero_le p, by omega⟩
  rw [← hpositions, List.mem_flatMap] at hmem
  obtain ⟨c, hc, hposition⟩ := hmem
  rcases mem_range'_block.1 hposition with rfl | hsurrounds
  · -- The token in the middle of a block is significant.
    obtain ⟨hsplit, hsignificant⟩ := mem_significant.1 hc
    rw [← hsplit, List.getElem?_append_right (Nat.le_refl _), Nat.sub_self,
      List.getElem?_cons_zero, Option.some.injEq] at hp
    rw [hp, ht] at hsignificant
    cases hsignificant
  · refine ⟨c, ⟨hc, hsurrounds⟩, fun d hd => ?_⟩
    have hnodup := List.nodup_range' (s := 0) (n := ts.length - (remainder ts).length) 1
    rw [← hpositions, List.nodup_flatMap] at hnodup
    have hsymm : Std.Symm (Function.onFun List.Disjoint fun c : Context =>
        List.range' (c.1.length - (leadingTrivia c.1).length) (block c).length) :=
      ⟨fun _ _ h _ hb ha => h ha hb⟩
    by_contra hne
    exact hnodup.2.forall hd.1 hc hne (mem_range'_block.2 (.inr hd.2)) hposition

/-- A parsed file with a significant token is made up of these tokens, each between the trivia that
belongs to it, and of the trivia behind the last one from the first line break on. All other trivia
belongs to exactly one token. -/
theorem trivia_partition {source : String} {tree : Tree} (hparse : parse source = .ok tree)
    (hsome : ∃ t ∈ tree.tokens, t.isTrivia = false) :
    ((significant tree.tokens).flatMap fun c =>
        textOf (leadingTrivia c.1) ++ c.2.1.text ++ textOf (trailingTrivia c.2.2)) ++
          textOf (remainder tree.tokens) = source.toList ∧
      (∀ c ∈ significant tree.tokens, leadingTrivia c.1 <:+ c.1 ∧ trailingTrivia c.2.2 <+: c.2.2) ∧
      ∀ (p : Nat) (t : Token), tree.tokens[p]? = some t → t.isTrivia = true →
        p + (remainder tree.tokens).length < tree.tokens.length →
          ∃! c, c ∈ significant tree.tokens ∧ Surrounds c p := by
  refine ⟨?_, fun c _ => ⟨leadingTrivia_suffix c.1, List.takeWhile_prefix _⟩,
    fun p t hp ht hbefore => existsUnique_surrounds hsome hp ht hbefore⟩
  calc
    _ = textOf ((significant tree.tokens).flatMap block) ++ textOf (remainder tree.tokens) := by
      rw [textOf_flatMap_block]
    _ = textOf tree.tokens := by rw [← textOf_append, flatMap_block hsome]
    _ = source.toList := by rw [RoundTrip.tokens_of_parseText hparse, Lexing.textOf_tokens]

/-- Comments before, between and behind two declarations, on lines of their own and at the ends of
others. -/
theorem trivia_partition_comments :
    ∃ tree, parse "// head\nlet a = 1 // one\n/* two */ import B // three\n// end" = .ok tree ∧
      textOf (remainder tree.tokens) = "\n// end".toList ∧
      ((significant tree.tokens).flatMap fun c =>
        textOf (leadingTrivia c.1) ++ c.2.1.text ++ textOf (trailingTrivia c.2.2)) ++
          "\n// end".toList =
            "// head\nlet a = 1 // one\n/* two */ import B // three\n// end".toList ∧
      ∃! c, c ∈ significant tree.tokens ∧ Surrounds c 0 := by
  have hparse : (parse "// head\nlet a = 1 // one\n/* two */ import B // three\n// end").isOk =
      true := by
    decide +kernel
  obtain ⟨tree, htree⟩ := RoundTrip.exists_of_isOk hparse
  have htokens : (∃ t ∈ tree.tokens, t.isTrivia = false) ∧
      textOf (remainder tree.tokens) = "\n// end".toList ∧
      tree.tokens[0]? = some ⟨.lineComment, "// head".toList⟩ ∧
      0 + (remainder tree.tokens).length < tree.tokens.length := by
    rw [RoundTrip.tokens_of_parseText htree]
    decide +kernel
  obtain ⟨hsome, hremainder, hcomment, hlength⟩ := htokens
  obtain ⟨htext, -, hunique⟩ := trivia_partition htree hsome
  rw [hremainder] at htext
  exact ⟨tree, htree, hremainder, htext, hunique 0 _ hcomment rfl hlength⟩

end PackageManifest.Proofs.Surroundings
