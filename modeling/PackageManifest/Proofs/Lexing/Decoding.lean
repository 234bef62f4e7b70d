import PackageManifest.Proofs.Lexing.Pieces
import PackageManifest.Source.Literal

/-!
# Which literals have a value

Main statement: `decode?_eq_none_iff`. The literals without a value are those that may span lines
and those that interpolate, and with pound signs also those that escape a backslash in front of what
would open an interpolation if it stood behind another backslash.
-/

namespace PackageManifest.Proofs.Lexing

open Source Literal

/-! ## What stands between the quotes -/

section Fences

variable {fence : Fence} {literal inner : List Char}

theorem pounds_of_open? {cs body : List Char} (h : Fence.open? cs = some (fence, body)) :
    (cs.takeWhile (· == '#')).length = fence.pounds := by
  simp only [Fence.open?] at h
  split at h
  · cases h
    rfl
  · cases h
    rfl
  · cases h

/-- Without its pound signs a literal is its inside between quotes. -/
theorem quoted_eq (h : literal = List.replicate fence.pounds '#' ++ fence.quotes ++
    (inner ++ fence.closing)) :
    (literal.drop fence.pounds).take (literal.length - 2 * fence.pounds) =
      fence.quotes ++ inner ++ fence.quotes := by
  have hsplit : literal = List.replicate fence.pounds '#' ++ ((fence.quotes ++ inner ++
      fence.quotes) ++ List.replicate fence.pounds '#') := by
    simp [h, Fence.closing]
  have hlength : literal.length - 2 * fence.pounds =
      (fence.quotes ++ inner ++ fence.quotes).length := by
    rw [hsplit]
    simp only [List.length_append, List.length_replicate]
    omega
  rw [hlength, hsplit, List.drop_left' List.length_replicate, List.take_left' rfl]

theorem startsWith_three (hopen : Fence.open? literal = some (fence, inner ++ fence.closing)) :
    Text.startsWith ['"', '"', '"'] (fence.quotes ++ inner ++ fence.quotes) = fence.multiline := by
  cases hmultiline : fence.multiline with
  | true =>
    have hquotes : fence.quotes = ['"', '"', '"'] := by simp [Fence.quotes, hmultiline]
    rw [hquotes, Text.startsWith, Text.after?_eq_some_iff.2 (List.append_assoc ..)]
    rfl
  | false =>
    have hquotes : fence.quotes = ['"'] := by simp [Fence.quotes, hmultiline]
    -- Three quotes would open a literal that may span lines.
    rw [hquotes, Text.startsWith, Bool.eq_false_iff, ne_eq, Option.isSome_iff_exists]
    rintro ⟨more, hmore⟩
    obtain ⟨tail, htail⟩ : ∃ tail, inner ++ fence.closing = '"' :: '"' :: tail := by
      have hthree := List.cons.inj (Text.after?_eq_some_iff.1 hmore)
      refine ⟨more ++ List.replicate fence.pounds '#', ?_⟩
      rw [Fence.closing, hquotes, ← List.append_assoc]
      exact congrArg (· ++ List.replicate fence.pounds '#') hthree.2
    have hwhole := Fence.open?_eq_some hopen
    rw [hquotes, htail, List.append_assoc, List.singleton_append] at hwhole
    rw [hwhole, open?_pounds] at hopen
    rw [← (Prod.mk.inj (Option.some.inj hopen)).1] at hmultiline
    cases hmultiline

theorem before?_quote (inner : List Char) : Text.before? ['"'] (inner ++ ['"']) = some inner := by
  simp [Text.before?, Text.after?]

theorem decode?_of_open? (hopen : Fence.open? literal = some (fence, inner ++ fence.closing)) :
    decode? literal =
      if fence.multiline then none
      else if fence.pounds = 0 then unescape inner
      else if occursIn (fence.escape ++ ['(']) inner then none
      else some inner := by
  have hquoted := quoted_eq (Fence.open?_eq_some hopen)
  simp only [decode?, pounds_of_open? hopen, hquoted, startsWith_three hopen]
  split
  · rfl
  · rename_i hsingle
    have hquotes : fence.quotes = ['"'] := by simp [Fence.quotes, hsingle]
    have hinner : unquote? (fence.quotes ++ inner ++ fence.quotes) = some inner := by
      rw [hquotes]
      exact before?_quote inner
    rw [hinner]
    rfl

end Fences

/-! ## Literals without pound signs -/

theorem unescape_plain {c : Char} (h : c ≠ '\\') (cs : List Char) :
    unescape (c :: cs) = (unescape cs).map (c :: ·) := by
  cases cs with
  | nil => simp [unescape, h]
  | cons d cs => rw [unescape, if_neg h]

/-- Without pound signs, a backslash is an escape to the scan and to the reader alike. -/
theorem unescape_spelled {fence : Fence} {ps : List Piece} (h : Read fence ps)
    (hpounds : fence.pounds = 0) :
    unescape (spelled fence ps) = none ↔ ∃ inside, Piece.interpolation inside ∈ ps := by
  have hescape : fence.escape = ['\\'] := by rw [Fence.escape, hpounds, List.replicate_zero]
  induction h with
  | done => simp [spelled, unescape]
  | @plain c ps hplain _ _ ih =>
    have hc : c ≠ '\\' := by
      rintro rfl
      rw [hescape] at hplain
      exact hplain ⟨_, rfl⟩
    rw [spelled_cons, Piece.text, List.singleton_append, unescape_plain hc, Option.map_eq_none_iff]
    simpa using ih
  | @escaped c ps hc _ ih =>
    have hmore : unescape ('\\' :: c :: spelled fence ps) =
        (unescape (spelled fence ps)).map (escaped c :: ·) := by
      rw [unescape, if_pos rfl, if_neg hc]
    rw [spelled_cons, Piece.text, hescape, List.append_assoc, List.singleton_append,
      List.singleton_append, hmore, Option.map_eq_none_iff]
    simpa using ih
  | @interpolation inside ps hinside _ _ =>
    obtain ⟨more, rfl⟩ := List.head?_eq_some_iff.1 hinside
    have hnone : unescape ('\\' :: '(' :: (more ++ spelled fence ps)) = none := by
      rw [unescape, if_pos rfl, if_pos rfl]
    rw [spelled_cons, Piece.text, hescape, List.append_assoc, List.singleton_append]
    exact iff_of_true hnone ⟨_, List.mem_cons_self ..⟩

/-! ## Literals with pound signs -/

theorem occursIn_iff {part cs : List Char} : occursIn part cs = true ↔ part <:+: cs := by
  induction cs with
  | nil => rw [occursIn, List.isEmpty_iff, List.infix_nil]
  | cons c cs ih =>
    have hstart : Text.startsWith part (c :: cs) = true ↔ part <+: c :: cs := by
      rw [Text.startsWith, Option.isSome_iff_exists]
      exact exists_congr fun more => Text.after?_eq_some_iff.trans eq_comm
    rw [occursIn, Bool.or_eq_true, hstart, ih, List.infix_cons_iff]

theorem prefix_spelled_iff {fence : Fence} {w : List Char} {ps : List Piece} (hw : '\\' ∉ w) :
    w <+: spelled fence ps ↔ ∃ after, ps = w.map .plain ++ after := by
  induction w generalizing ps with
  | nil => simp
  | cons c w ih =>
    rw [List.mem_cons, not_or] at hw
    have hslash {more : List Char} : ¬c :: w <+: fence.escape ++ more := by
      rw [Fence.escape, List.cons_append, List.cons_prefix_cons]
      exact fun h => hw.1 h.1.symm
    cases ps with
    | nil => simp [spelled]
    | cons p ps =>
      rw [spelled_cons]
      cases p with
      | plain d =>
        rw [Piece.text, List.singleton_append, List.cons_prefix_cons, ih hw.2]
        simp [eq_comm]
      | escaped d =>
        rw [Piece.text, List.append_assoc]
        simp [hslash]
      | interpolation inside =>
        rw [Piece.text, List.append_assoc]
        simp [hslash]

/-- An escaped backslash in front of what would open an interpolation behind a backslash of its
own. -/
def Mimics (fence : Fence) (ps : List Piece) : Prop :=
  ∃ before after, ps = before ++ .escaped '\\' ::
    ((List.replicate fence.pounds '#' ++ ['(']).map .plain ++ after)

theorem mimics_cons {fence : Fence} {p : Piece} {ps : List Piece} :
    Mimics fence (p :: ps) ↔
      (p = .escaped '\\' ∧
        ∃ after, ps = (List.replicate fence.pounds '#' ++ ['(']).map .plain ++ after) ∨
      Mimics fence ps := by
  constructor
  · rintro ⟨before, after, h⟩
    cases before with
    | nil =>
      obtain ⟨hp, hps⟩ := List.cons.inj h
      exact .inl ⟨hp, after, hps⟩
    | cons q before => exact .inr ⟨before, after, (List.cons.inj h).2⟩
  · rintro (⟨rfl, after, rfl⟩ | ⟨before, after, rfl⟩)
    · exact ⟨[], after, rfl⟩
    · exact ⟨p :: before, after, rfl⟩

theorem slash_infix_pounds (n : Nat) (w cs : List Char) :
    '\\' :: w <:+: List.replicate n '#' ++ cs ↔ '\\' :: w <:+: cs := by
  induction n with
  | zero => simp
  | succ n ih =>
    rw [List.replicate_succ, List.cons_append, List.infix_cons_iff, ih, List.cons_prefix_cons]
    simp

/-- What opens an interpolation is found where one is opened, and behind a backslash that is
escaped itself. -/
theorem occursIn_spelled {fence : Fence} {ps : List Piece} (h : Read fence ps) :
    occursIn (fence.escape ++ ['(']) (spelled fence ps) = true ↔
      (∃ inside, Piece.interpolation inside ∈ ps) ∨ Mimics fence ps := by
  rw [occursIn_iff]
  induction h with
  | done => simp [spelled, Mimics]
  | @plain c ps hplain _ _ ih =>
    have hhead : ¬fence.escape ++ ['('] <+: c :: spelled fence ps := fun h =>
      hplain ((List.prefix_append ..).trans h)
    rw [spelled_cons, Piece.text, List.singleton_append, List.infix_cons_iff, mimics_cons]
    simpa [hhead] using ih
  | @escaped c ps hc _ ih =>
    have hhead : ¬fence.escape ++ ['('] <+: fence.escape ++ c :: spelled fence ps := by
      rw [List.prefix_append_right_inj, List.cons_prefix_cons]
      exact fun h => hc h.1.symm
    have htail : '\\' ∉ List.replicate fence.pounds '#' ++ ['('] := by simp
    have hwhole : fence.escape ++ c :: spelled fence ps =
        '\\' :: (List.replicate fence.pounds '#' ++ c :: spelled fence ps) := rfl
    have hpart : fence.escape ++ ['('] = '\\' :: (List.replicate fence.pounds '#' ++ ['(']) := rfl
    rw [spelled_cons, Piece.text, List.append_assoc, List.singleton_append]
    rw [hwhole] at hhead ⊢
    rw [List.infix_cons_iff, or_iff_right hhead, hpart, slash_infix_pounds, List.infix_cons_iff,
      List.cons_prefix_cons, prefix_spelled_iff htail, ← hpart, mimics_cons]
    simp only [List.mem_cons, reduceCtorEq, false_or, Piece.escaped.injEq, eq_comm (a := c)]
    rw [or_left_comm]
    exact or_congr_right ih
  | @interpolation inside ps hinside _ _ =>
    obtain ⟨more, rfl⟩ := List.head?_eq_some_iff.1 hinside
    refine iff_of_true ?_ (.inl ⟨_, List.mem_cons_self ..⟩)
    refine List.IsPrefix.isInfix ⟨more ++ spelled fence ps, ?_⟩
    rw [spelled_cons, Piece.text]
    simp

/-! ## The literals of a text -/

/-- A literal has no value if it may span lines, if it interpolates, or if it has pound signs and
mimics an interpolation; else it has one. -/
theorem decode?_eq_none_iff {input : List Char} {t : Token} (h : faults input = [])
    (ht : t ∈ tokens input) (hkind : t.kind = .stringLit) :
    ∃ fence body, Fence.open? t.text = some (fence, body) ∧
      body = spelled fence (pieces fence body) ++ fence.closing ∧
      (decode? t.text = none ↔
        fence.multiline = true ∨ (∃ inside, Piece.interpolation inside ∈ pieces fence body) ∨
          (0 < fence.pounds ∧ Mimics fence (pieces fence body))) := by
  obtain ⟨fence, body, hopen, hbody, hread⟩ := literal_pieces h ht hkind
  refine ⟨fence, body, hopen, hbody, ?_⟩
  rw [decode?_of_open? (hopen.trans (congrArg (fun b => some (fence, b)) hbody))]
  cases hmultiline : fence.multiline with
  | true => simp
  | false =>
    simp only [Bool.false_eq_true, if_false, false_or]
    by_cases hpounds : fence.pounds = 0
    · rw [if_pos hpounds, unescape_spelled hread hpounds, hpounds]
      simp
    · have hpos : 0 < fence.pounds := Nat.pos_of_ne_zero hpounds
      rw [if_neg hpounds, and_iff_right hpos, ← occursIn_spelled hread]
      simp

/-- A literal with two pound signs, in which a backslash with one of them does not interpolate but
one with both does. -/
theorem decode?_eq_none_iff_two_pounds :
    faults "##\"\\#(a) \\##(b)\"##".toList = [] ∧
      ⟨.stringLit, "##\"\\#(a) \\##(b)\"##".toList⟩ ∈ tokens "##\"\\#(a) \\##(b)\"##".toList ∧
      ∃ fence body, Fence.open? "##\"\\#(a) \\##(b)\"##".toList = some (fence, body) ∧
        Piece.interpolation "(b)".toList ∈ pieces fence body ∧
        decode? "##\"\\#(a) \\##(b)\"##".toList = none := by
  have hfaults : faults "##\"\\#(a) \\##(b)\"##".toList = [] := by decide +kernel
  have hmem : (⟨.stringLit, "##\"\\#(a) \\##(b)\"##".toList⟩ : Token) ∈
      tokens "##\"\\#(a) \\##(b)\"##".toList := by decide +kernel
  obtain ⟨fence, body, hopen, _, hnone⟩ := decode?_eq_none_iff hfaults hmem rfl
  have hopen' : Fence.open? "##\"\\#(a) \\##(b)\"##".toList =
      some (⟨2, false⟩, "\\#(a) \\##(b)\"##".toList) := by decide +kernel
  obtain ⟨rfl, rfl⟩ := Prod.mk.inj (Option.some.inj (hopen'.symm.trans hopen))
  have hinside : Piece.interpolation "(b)".toList ∈
      pieces ⟨2, false⟩ "\\#(a) \\##(b)\"##".toList := by decide +kernel
  exact ⟨hfaults, hmem, _, _, hopen', hinside, hnone.2 (.inr (.inl ⟨_, hinside⟩))⟩

/-- A literal on one line that does not interpolate and yet has no value. -/
theorem decode?_of_escaped_backslash :
    faults "#\"\\#\\#(x\"#".toList = [] ∧
      tokens "#\"\\#\\#(x\"#".toList = [⟨.stringLit, "#\"\\#\\#(x\"#".toList⟩] ∧
      Fence.open? "#\"\\#\\#(x\"#".toList = some (⟨1, false⟩, "\\#\\#(x\"#".toList) ∧
      pieces ⟨1, false⟩ "\\#\\#(x\"#".toList =
        [.escaped '\\', .plain '#', .plain '(', .plain 'x'] ∧
      decode? "#\"\\#\\#(x\"#".toList = none := by
  decide +kernel

end PackageManifest.Proofs.Lexing
