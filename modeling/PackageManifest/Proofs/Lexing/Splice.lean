import PackageManifest.Proofs.Lexing.Cut

/-!
# Putting other tokens behind a token

A token sees of the text behind it only what `SameSight` compares, and this much of it is decided
by the next token, unless that one is a point. So a list of tokens can be given another
continuation as soon as its last token can.
-/

namespace PackageManifest.Proofs.Lexing

open Source

/-- Two texts look alike to a token before them. -/
structure SameSight (r r' : List Char) : Prop where
  head : r.head? = r'.head?
  fraction : startsFraction r = startsFraction r'
  comment : startsComment r = startsComment r'
  fence : (Fence.open? r).isSome = (Fence.open? r').isSome

theorem Stops.congr {p : Char → Bool} {r r' : List Char} (h : Stops p r)
    (hhead : r.head? = r'.head?) : Stops p r' := by
  intro c hc
  exact h c (hhead ▸ hc)

theorem endsOperator.congr {r r' : List Char} (h : endsOperator r) (hsight : SameSight r r') :
    endsOperator r' :=
  h.imp (fun hstops => hstops.congr hsight.head) fun hcomment => hsight.comment ▸ hcomment

theorem Fits.congr {t : Token} {r r' : List Char} (h : Fits t r) (hsight : SameSight r r') :
    Fits t r' := by
  unfold Fits at h ⊢
  split
  · rename_i hname
    rw [if_pos hname] at h
    exact h.imp id fun hstops => hstops.congr hsight.head
  · rename_i hname
    rw [if_neg hname] at h
    split at h
    · exact h.congr hsight.head
    · exact fun htext => (h htext).congr hsight.head
    · exact h.congr hsight.head
    · exact fun htext => (h htext).congr hsight.head
    · rw [← Option.not_isSome_iff_eq_none, ← hsight.fence, Option.not_isSome_iff_eq_none]
      exact h
    · exact ⟨h.1.congr hsight.head, hsight.fraction ▸ h.2⟩
    · exact h.congr hsight.head
    · split at h
      · rename_i hpoint
        rw [if_pos hpoint]
        exact h.imp id fun hstops => hstops.congr hsight.head
      · rename_i hpoint
        rw [if_neg hpoint]
        exact ⟨h.1.congr hsight, hsight.comment ▸ h.2⟩
    · split at h
      · rename_i hpoint
        rw [if_pos hpoint]
        exact h.imp id fun hstops => hstops.congr hsight.head
      · rename_i hpoint
        rw [if_neg hpoint]
        exact ⟨h.1.congr hsight, hsight.comment ▸ h.2⟩
    · exact h

/-! ## What a token shows of itself -/

section Single

variable {kind : TokenKind} {c : Char} {r : List Char}

theorem kind_of_cut?_point (h : cut? '.' r = some (kind, r)) : kind = .dot := by
  have h' : (if r.head? = some '.' then some (TokenKind.operator, (rangeTail r).1)
      else some (.dot, r)) = some (kind, r) := h
  split at h'
  · rename_i hhead
    rw [Option.some.injEq, Prod.mk.injEq] at h'
    cases stops_of_rangeTail h'.2 '.' hhead
  · rw [Option.some.injEq, Prod.mk.injEq] at h'
    exact h'.1.symm

theorem startsComment_of_cut?_slash (h : cut? '/' r = some (kind, r)) :
    startsComment ('/' :: r) = false := by
  rw [Bool.eq_false_iff, ne_eq, startsComment_cons]
  rintro ⟨_, hhead | hhead⟩
  · have h' : some (TokenKind.lineComment, r.dropWhile fun c => !isBreak c) = some (kind, r) := by
      rw [← h, cut?, if_neg (by decide), if_neg (by decide), if_neg (by decide),
        if_pos ⟨rfl, hhead⟩]
    rw [Option.some.injEq, Prod.mk.injEq] at h'
    cases stops_of_dropWhile_eq h'.2 '/' hhead
  · have h' : (commentRest? 1 (r.drop 1)).map (fun rest => (TokenKind.blockComment, rest)) =
        some (kind, r) := by
      rw [← h, cut?, if_neg (by decide), if_neg (by decide), if_neg (by decide),
        if_neg (by simp [hhead]), if_pos ⟨rfl, hhead⟩]
    obtain ⟨rest, hrest, heq⟩ := Option.map_eq_some_iff.1 h'
    cases heq
    have := length_commentRest? hrest
    rw [List.length_drop] at this
    omega

theorem kind_of_cut?_pound {cs : List Char} (h : cut? '#' cs = some (kind, r)) :
    (Fence.open? ('#' :: cs)).isSome = (kind == .stringLit) := by
  rw [cut?, if_neg (by decide), if_neg (by decide), if_neg (by decide), if_neg (by simp),
    if_neg (by simp)] at h
  cases hopen : Fence.open? ('#' :: cs) with
  | some opened =>
    simp only [hopen, Option.map_eq_some_iff] at h
    obtain ⟨rest, _, heq⟩ := h
    cases heq
    rfl
  | none =>
    simp only [hopen] at h
    cases h
    rfl

end Single

/-- The first token of a text decides what a token before it sees, but for the second character
when it is a point. -/
theorem sameSight_append {u : Token} {r r' : List Char} (h : Cuts u r) (h' : Cuts u r')
    (hdot : u.kind = .dot → r.head? = r'.head?) : SameSight (u.text ++ r) (u.text ++ r') := by
  obtain ⟨c, cs, htext, hcut⟩ := cuts_iff.1 h
  obtain ⟨c', cs', htext', hcut'⟩ := cuts_iff.1 h'
  obtain ⟨rfl, rfl⟩ := List.cons.inj (htext.symm.trans htext')
  rw [htext, List.cons_append, List.cons_append]
  refine ⟨rfl, ?_, ?_, ?_⟩
  · cases cs with
    | cons d cs =>
      simp only [List.cons_append]
      unfold startsFraction
      split <;> simp_all
    | nil =>
      by_cases hc : c = '.'
      · subst hc
        have hhead := hdot (kind_of_cut?_point hcut)
        rw [List.nil_append, List.nil_append]
        cases r <;> cases r' <;> simp_all [startsFraction]
      · unfold startsFraction
        split <;> simp_all
  · cases cs with
    | cons d cs => exact startsComment_append (w := d :: cs) (by simp)
    | nil =>
      by_cases hc : c = '/'
      · subst hc
        rw [List.nil_append] at hcut hcut' ⊢
        rw [List.nil_append, startsComment_of_cut?_slash hcut, startsComment_of_cut?_slash hcut']
      · rw [startsComment_of_ne hc, startsComment_of_ne hc]
  · by_cases hpound : c = '#'
    · subst hpound
      rw [kind_of_cut?_pound hcut, kind_of_cut?_pound hcut']
    · by_cases hquote : c = '"'
      · subst hquote
        have some_of (b : List Char) : (Fence.open? ('"' :: b)).isSome = true := by
          have := open?_pounds 0 b
          rw [List.replicate_zero, List.nil_append] at this
          rw [this]
          split <;> rfl
        rw [some_of, some_of]
      · rw [open?_eq_none hpound hquote, open?_eq_none hpound hquote]

/-! ## Lists of tokens -/

theorem Lexed.congr {ts : List Token} {s s' : List Char} (h : Lexed ts s)
    (hsight : SameSight s s') :
    Lexed ts s' ∧ SameSight (textOf ts ++ s) (textOf ts ++ s') := by
  induction ts with
  | nil => exact ⟨trivial, hsight⟩
  | cons t ts ih =>
    obtain ⟨hts, hmore⟩ := ih h.2
    have ht : Cuts t (textOf ts ++ s') := h.1.of_fits (h.1.fits.congr hmore)
    refine ⟨⟨ht, hts⟩, ?_⟩
    rw [textOf_cons, List.append_assoc, List.append_assoc]
    exact sameSight_append h.1 ht fun _ => hmore.head

/-- With another text behind its last token, every token of a list is still cut off. -/
theorem Lexed.of_last {ts : List Token} {u : Token} {r r' : List Char}
    (h : Lexed (ts ++ [u]) r) (hu : Fits u r') (hdot : u.kind ≠ .dot) : Lexed (ts ++ [u]) r' := by
  rw [lexed_append] at h ⊢
  obtain ⟨hts, hlast, _⟩ := h
  have hu' := Cuts.of_fits hlast hu
  refine ⟨(hts.congr ?_).1, hu', trivial⟩
  simp only [textOf_cons, textOf_nil, List.append_nil, List.nil_append] at hlast hu' ⊢
  exact sameSight_append hlast hu' fun hkind => absurd hkind hdot

/-- Other tokens in the place of `old`, behind a token that they fit. -/
theorem Lexed.splice {before old new after : List Token} {u : Token} {r : List Char}
    (h : Lexed (before ++ u :: (old ++ after)) r)
    (hu : Fits u (textOf new ++ (textOf after ++ r))) (hdot : u.kind ≠ .dot)
    (hnew : Lexed new (textOf after ++ r)) : Lexed (before ++ u :: (new ++ after)) r := by
  have hold : before ++ u :: (old ++ after) = before ++ [u] ++ (old ++ after) := by simp
  have hnew' : before ++ u :: (new ++ after) = before ++ [u] ++ (new ++ after) := by simp
  rw [hold] at h
  obtain ⟨hbefore, hmore⟩ := lexed_append.1 h
  obtain ⟨_, hafter⟩ := lexed_append.1 hmore
  rw [hnew']
  refine lexed_append.2 ⟨hbefore.of_last ?_ hdot, lexed_append.2 ⟨hnew, hafter⟩⟩
  rwa [textOf_append, List.append_assoc]

end PackageManifest.Proofs.Lexing
