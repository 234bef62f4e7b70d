import PackageManifest.Proofs.Lexing.Cut

/-!
# The pieces of a string literal

A scan of a string literal passes characters that stand for themselves, escaped characters and whole
interpolations. `pieces` lists what it passes, up to the closing fence. Main statement:
`literal_line_breaks`. Outside of interpolations, a literal on one line holds a line break exactly
if it escapes one.
-/

namespace PackageManifest.Proofs.Lexing

open Source

inductive Piece where
  | plain (c : Char)
  | escaped (c : Char)
  /-- An escape and a text from an opening parenthesis to the one that closes it. -/
  | interpolation (inside : List Char)
  deriving DecidableEq, Repr

namespace Piece

def text (fence : Fence) : Piece → List Char
  | plain c => [c]
  | escaped c => fence.escape ++ [c]
  | interpolation inside => fence.escape ++ inside

def outside (fence : Fence) : Piece → List Char
  | interpolation _ => []
  | piece => piece.text fence

end Piece

def pieces (fence : Fence) (cs : List Char) : List Piece :=
  match cs with
  | [] => []
  | c :: cs =>
    match Text.after? fence.closing (c :: cs) with
    | some _ => []
    | none =>
      match hescape : Text.after? fence.escape (c :: cs) with
      | none => .plain c :: pieces fence cs
      | some [] => []
      | some (d :: more) =>
        have := Fence.length_lt_of_escape hescape
        if d = '(' then
          match hinside : restOf (scanInterpolation (d :: more) 0 (d :: more)) with
          | none => []
          | some rest =>
            have := (restOf_eq_some hinside).length_le
            .interpolation ((d :: more).take (more.length + 1 - rest.length)) :: pieces fence rest
        else .escaped d :: pieces fence more
termination_by cs.length
decreasing_by all_goals simp only [List.length_cons] at *; omega

def spelled (fence : Fence) (ps : List Piece) : List Char := ps.flatMap (Piece.text fence)

theorem spelled_nil (fence : Fence) : spelled fence [] = [] := rfl

theorem spelled_cons (fence : Fence) (p : Piece) (ps : List Piece) :
    spelled fence (p :: ps) = p.text fence ++ spelled fence ps := rfl

/-- Pieces that a scan takes for what they are. -/
inductive Read (fence : Fence) : List Piece → Prop
  | done : Read fence []
  | plain {c : Char} {ps : List Piece} :
      ¬fence.escape <+: c :: spelled fence ps → (fence.multiline = false → isBreak c = false) →
      Read fence ps → Read fence (.plain c :: ps)
  | escaped {c : Char} {ps : List Piece} : c ≠ '(' → Read fence ps → Read fence (.escaped c :: ps)
  | interpolation {inside : List Char} {ps : List Piece} :
      inside.head? = some '(' → Read fence ps → Read fence (.interpolation inside :: ps)

/-! ## The scan -/

variable {fence : Fence} {start rest cs : List Char} {c : Char}

theorem not_escape_of_after? {w : List Char} (h : Text.after? fence.escape (w ++ rest) = none) :
    ¬fence.escape <+: w := by
  rintro ⟨more, rfl⟩
  rw [Option.eq_none_iff_forall_ne_some] at h
  exact h (more ++ rest) (Text.after?_eq_some_iff.2 (List.append_assoc ..))

/-- A scan that ends has passed all of a text but the closing fence and what is behind that. -/
theorem pieces_of_scan (h : restOf (scanString fence start cs) = some rest) :
    cs = spelled fence (pieces fence cs) ++ (fence.closing ++ rest) ∧
      Read fence (pieces fence cs) := by
  fun_induction pieces fence cs with
  | case1 =>
    rw [restOf_scanString_nil] at h
    cases h
  | case2 c cs after hclose =>
    simp only [restOf_scanString_cons, hclose, Option.some.injEq] at h
    rw [← h, spelled_nil, List.nil_append]
    exact ⟨Text.after?_eq_some_iff.1 hclose, .done⟩
  | case3 c cs hclose hescape ih =>
    simp only [restOf_scanString_cons, hclose, hescape] at h
    split at h
    · cases h
    · rename_i hline
      obtain ⟨hcs, hread⟩ := ih h
      have hwhole : c :: cs = c :: spelled fence (pieces fence cs) ++ (fence.closing ++ rest) :=
        congrArg (c :: ·) hcs
      rw [hwhole] at hescape
      refine ⟨hwhole, .plain (not_escape_of_after? hescape) (fun hsingle => ?_) hread⟩
      simpa [hsingle, isBreak] using hline
  | case4 c cs hclose hescape =>
    simp only [restOf_scanString_cons, hclose, hescape] at h
    rw [if_neg (by simp), List.drop_nil, restOf_scanString_nil] at h
    cases h
  | case5 c cs hclose more hescape _ hinside =>
    simp only [restOf_scanString_cons, hclose, hescape, List.head?_cons, if_true, hinside] at h
    cases h
  | case6 c cs hclose more after hescape _ hinside _ ih =>
    simp only [restOf_scanString_cons, hclose, hescape, List.head?_cons, if_true, hinside] at h
    obtain ⟨hafter, hread⟩ := ih h
    obtain ⟨inside, hsplit⟩ := restOf_eq_some hinside
    have htake : ('(' :: more).take (more.length + 1 - after.length) = inside := by
      rw [← List.length_cons, ← hsplit, List.length_append, Nat.add_sub_cancel, List.take_left']
      rfl
    have hhead : inside.head? = some '(' := by
      cases inside with
      | nil =>
        rw [List.nil_append] at hsplit
        rw [hsplit] at hinside
        exact absurd (length_lt_of_scanInterpolation hinside) (Nat.lt_irrefl _)
      | cons d inside => rw [List.head?_cons, (List.cons.inj hsplit).1]
    rw [htake]
    refine ⟨?_, .interpolation hhead hread⟩
    rw [Text.after?_eq_some_iff.1 hescape, ← hsplit, spelled_cons, Piece.text, List.append_assoc,
      List.append_assoc, ← hafter]
  | case7 c cs hclose d more hescape _ hparen ih =>
    simp only [restOf_scanString_cons, hclose, hescape] at h
    rw [if_neg (by simpa using hparen)] at h
    obtain ⟨hmore, hread⟩ := ih h
    refine ⟨?_, .escaped hparen hread⟩
    rw [Text.after?_eq_some_iff.1 hescape, spelled_cons, Piece.text, List.append_assoc,
      List.append_assoc, ← hmore, List.singleton_append]

/-! ## The literals of a text -/

/-- Nothing but a fence starts a literal. Apart from words, marks and operators, every other rule
names another kind. -/
theorem isSome_open?_of_cut? (h : cut? c cs = some (.stringLit, rest)) :
    (Fence.open? (c :: cs)).isSome = true := by
  revert h
  apply cut?.fun_cases_unfolding c cs (motive := fun cut =>
    cut = some (.stringLit, rest) → (Fence.open? (c :: cs)).isSome = true)
  case case6 =>
    intros
    simp [*]
  case case11 =>
    intro _ _ _ _ _ _ _ _ _ _ _ heq
    have hname := isNameLike_ofWord? (c :: cs.takeWhile isNamePart)
    rw [(Prod.mk.inj (Option.some.inj heq)).1] at hname
    cases hname
  case case12 =>
    intro _ _ _ _ _ _ _ _ _ _ _ kind hkind heq
    rw [(Prod.mk.inj (Option.some.inj heq)).1] at hkind
    unfold punctuation? at hkind
    split at hkind <;> cases hkind
  case case15 =>
    intro _ _ _ _ _ _ _ _ _ _ _ _ _ _ heq
    have hkind := (Prod.mk.inj (Option.some.inj heq)).1
    split at hkind <;> cases hkind
  case case5 | case8 =>
    intros
    rename_i heq
    obtain ⟨_, _, heq⟩ := Option.map_eq_some_iff.1 heq
    cases heq
  all_goals
    intros
    rename_i heq
    cases heq

/-- A literal that is cut off without a fault is read to its end by itself. -/
theorem scan_of_literal {input : List Char} {t : Token} (h : faults input = [])
    (ht : t ∈ tokens input) (hkind : t.kind = .stringLit) :
    ∃ fence body, Fence.open? t.text = some (fence, body) ∧
      restOf (scanString fence t.text body) = some [] := by
  obtain ⟨left, right, hsplit⟩ := List.append_of_mem ht
  have hlexed := lexed_tokens h
  rw [hsplit, lexed_append] at hlexed
  have hfits : Fits t [] := by
    rw [Fits, hkind]
    exact fun _ => stops_nil _
  have hcuts : Cuts t [] := hlexed.2.1.of_fits hfits
  obtain ⟨c, cs, htext, hcut⟩ := cuts_iff.1 hcuts
  rw [hkind] at hcut
  obtain ⟨⟨fence, body⟩, hopen⟩ := Option.isSome_iff_exists.1 (isSome_open?_of_cut? hcut)
  rw [cut?_of_open? hopen] at hcut
  obtain ⟨rest, hscan, heq⟩ := Option.map_eq_some_iff.1 hcut
  rw [List.append_nil] at hopen hscan
  rw [(Prod.mk.inj heq).2] at hscan
  exact ⟨fence, body, htext ▸ hopen, htext ▸ hscan⟩

/-- A literal is a fence, the pieces that the scan passes, and the closing fence. -/
theorem literal_pieces {input : List Char} {t : Token} (h : faults input = [])
    (ht : t ∈ tokens input) (hkind : t.kind = .stringLit) :
    ∃ fence body, Fence.open? t.text = some (fence, body) ∧
      body = spelled fence (pieces fence body) ++ fence.closing ∧
      Read fence (pieces fence body) := by
  obtain ⟨fence, body, hopen, hscan⟩ := scan_of_literal h ht hkind
  obtain ⟨hbody, hread⟩ := pieces_of_scan hscan
  rw [List.append_nil] at hbody
  exact ⟨fence, body, hopen, hbody, hread⟩

def outsideText (fence : Fence) (body : List Char) : List Char :=
  List.replicate fence.pounds '#' ++ fence.quotes ++
    (pieces fence body).flatMap (Piece.outside fence) ++ fence.closing

theorem not_isBreak_of_fence {fence : Fence} {c : Char}
    (h : c ∈ List.replicate fence.pounds '#' ∨ c ∈ fence.quotes) : isBreak c = false := by
  rcases h with h | h
  · rw [List.eq_of_mem_replicate h]
    decide
  · unfold Fence.quotes at h
    split at h <;> simp_all [isBreak]

theorem not_isBreak_of_escape {fence : Fence} {c : Char} (h : c ∈ fence.escape) :
    isBreak c = false := by
  rcases List.mem_cons.1 h with rfl | h
  · decide
  · exact not_isBreak_of_fence (.inl h)

theorem Read.isBreak_plain {fence : Fence} {ps : List Piece} {c : Char} (h : Read fence ps)
    (hsingle : fence.multiline = false) (hmem : Piece.plain c ∈ ps) : isBreak c = false := by
  induction h with
  | done => cases hmem
  | plain _ hline _ ih =>
    rcases List.mem_cons.1 hmem with heq | hmem
    · cases heq
      exact hline hsingle
    · exact ih hmem
  | escaped _ _ ih | interpolation _ _ ih => exact ih (by simpa using hmem)

theorem Read.escaped_of_isBreak {fence : Fence} {ps : List Piece} {c : Char} (h : Read fence ps)
    (hsingle : fence.multiline = false) (hmem : c ∈ ps.flatMap (Piece.outside fence))
    (hbreak : isBreak c = true) : Piece.escaped c ∈ ps := by
  obtain ⟨p, hp, hc⟩ := List.mem_flatMap.1 hmem
  cases p with
  | plain d =>
    rw [List.mem_singleton.1 hc, h.isBreak_plain hsingle hp] at hbreak
    cases hbreak
  | escaped d =>
    rcases List.mem_append.1 hc with hc | hc
    · rw [not_isBreak_of_escape hc] at hbreak
      cases hbreak
    · rwa [List.mem_singleton.1 hc]
  | interpolation inside => cases hc

/-- Outside of its interpolations, a literal on one line holds a line break exactly if one of its
escapes stands before a break. -/
theorem literal_line_breaks {input : List Char} {t : Token} (h : faults input = [])
    (ht : t ∈ tokens input) (hkind : t.kind = .stringLit) :
    ∃ fence body, Fence.open? t.text = some (fence, body) ∧
      body = spelled fence (pieces fence body) ++ fence.closing ∧
      (fence.multiline = false →
        ((∃ c ∈ outsideText fence body, isBreak c = true) ↔
          ∃ c, isBreak c = true ∧ Piece.escaped c ∈ pieces fence body)) := by
  obtain ⟨fence, body, hopen, hbody, hread⟩ := literal_pieces h ht hkind
  refine ⟨fence, body, hopen, hbody, fun hsingle => ⟨?_, ?_⟩⟩
  · rintro ⟨c, hc, hbreak⟩
    have hfence : ¬(c ∈ List.replicate fence.pounds '#' ∨ c ∈ fence.quotes) := by
      intro hc
      rw [not_isBreak_of_fence hc] at hbreak
      cases hbreak
    rw [not_or] at hfence
    simp only [outsideText, Fence.closing, List.mem_append, hfence.1, hfence.2, false_or,
      or_false] at hc
    exact ⟨c, hbreak, hread.escaped_of_isBreak hsingle hc hbreak⟩
  · rintro ⟨c, hbreak, hmem⟩
    have hpiece : c ∈ (pieces fence body).flatMap (Piece.outside fence) :=
      List.mem_flatMap.2 ⟨_, hmem, List.mem_append_right _ (List.mem_singleton_self c)⟩
    exact ⟨c, List.mem_append_left _ (List.mem_append_right _ hpiece), hbreak⟩

/-- A literal that breaks the line in an interpolation only, and escapes an `n`. -/
theorem literal_line_breaks_in_interpolation :
    faults "f(\"a\\(x[\n0])\\n\")".toList = [] ∧
      ⟨.stringLit, "\"a\\(x[\n0])\\n\"".toList⟩ ∈ tokens "f(\"a\\(x[\n0])\\n\")".toList ∧
      ∃ fence body, Fence.open? "\"a\\(x[\n0])\\n\"".toList = some (fence, body) ∧
        fence.multiline = false ∧ pieces fence body =
          [.plain 'a', .interpolation "(x[\n0])".toList, .escaped 'n'] ∧
        ¬∃ c ∈ outsideText fence body, isBreak c = true := by
  have hfaults : faults "f(\"a\\(x[\n0])\\n\")".toList = [] := by decide +kernel
  have hmem : (⟨.stringLit, "\"a\\(x[\n0])\\n\"".toList⟩ : Token) ∈
      tokens "f(\"a\\(x[\n0])\\n\")".toList := by decide +kernel
  obtain ⟨fence, body, hopen, _, hbreaks⟩ := literal_line_breaks hfaults hmem rfl
  have hopen' : Fence.open? "\"a\\(x[\n0])\\n\"".toList =
      some (⟨0, false⟩, "a\\(x[\n0])\\n\"".toList) := by decide +kernel
  obtain ⟨rfl, rfl⟩ := Prod.mk.inj (Option.some.inj (hopen'.symm.trans hopen))
  have hpieces : pieces ⟨0, false⟩ "a\\(x[\n0])\\n\"".toList =
      [.plain 'a', .interpolation "(x[\n0])".toList, .escaped 'n'] := by decide +kernel
  refine ⟨hfaults, hmem, _, _, hopen', rfl, hpieces, fun hbreak => ?_⟩
  obtain ⟨c, hc, hescaped⟩ := (hbreaks rfl).1 hbreak
  rw [hpieces] at hescaped
  obtain rfl : c = 'n' := by simpa using hescaped
  cases hc

/-- An escape that stands before a line break keeps a literal on one line open in the next. -/
theorem literal_escapes_line_break :
    faults "\"a\\\nb\"".toList = [] ∧
      tokens "\"a\\\nb\"".toList = [⟨.stringLit, "\"a\\\nb\"".toList⟩] ∧
      Fence.open? "\"a\\\nb\"".toList = some (⟨0, false⟩, "a\\\nb\"".toList) ∧
      '\n' ∈ outsideText ⟨0, false⟩ "a\\\nb\"".toList := by
  decide +kernel

end PackageManifest.Proofs.Lexing
