import Mathlib.Data.List.DropRight
import Mathlib.Data.List.TakeWhile
import PackageManifest.Layout
import PackageManifest.Proofs.Lexing.Pieces

/-!
# Line breaks and tokens

A text is `Uniform` if all of its lines end alike. A carriage return and the line feed behind it
always belong to one token, so the tokens of a uniform text are uniform, and uniform tokens make up
a uniform text. The line ending of a uniform text is the one that is found in it.
-/

namespace PackageManifest.Proofs.Lexing

open Source

/-- Every line feed has a carriage return before it, and every carriage return a line feed
behind it. -/
structure Paired (cs : List Char) : Prop where
  feed : ∀ before after, cs = before ++ '\n' :: after → before.getLast? = some '\r'
  carriage : ∀ before after, cs = before ++ '\r' :: after → after.head? = some '\n'

/-- The lines of a text all end in the same way. -/
def Uniform : LineEnding → List Char → Prop
  | .lf, cs => '\r' ∉ cs
  | .crlf, cs => Paired cs

def OneLine (cs : List Char) : Prop := ∀ c ∈ cs, isBreak c = false

instance (cs : List Char) : Decidable (OneLine cs) :=
  decidable_of_iff (cs.all fun c => !isBreak c) (by simp [OneLine])

/-! ## Texts side by side -/

section OneLine

variable {a b : List Char} {c : Char}

@[simp] theorem oneLine_nil : OneLine [] := List.forall_mem_nil _

@[simp] theorem oneLine_cons : OneLine (c :: a) ↔ isBreak c = false ∧ OneLine a :=
  List.forall_mem_cons

@[simp] theorem oneLine_append : OneLine (a ++ b) ↔ OneLine a ∧ OneLine b :=
  List.forall_mem_append

end OneLine

theorem occurs_append {a b before after : List Char} {c : Char}
    (h : a ++ b = before ++ c :: after) :
    (∃ more, a = before ++ c :: more ∧ after = more ++ b) ∨
      ∃ more, before = a ++ more ∧ b = more ++ c :: after := by
  rcases List.append_eq_append_iff.1 h with ⟨more, hbefore, hb⟩ | ⟨more, ha, hb⟩
  · exact .inr ⟨more, hbefore, hb⟩
  · rcases List.cons_eq_append_iff.1 hb with ⟨rfl, hb⟩ | ⟨more, rfl, hafter⟩
    · exact .inr ⟨[], by simp [ha], hb.symm⟩
    · exact .inl ⟨more, ha, hafter⟩

theorem rdropWhile_cases (p : Char → Bool) (cs : List Char) :
    cs.rdropWhile p = [] ∨ ∃ before c, p c = false ∧ cs.rdropWhile p = before ++ [c] := by
  by_cases hnil : cs.rdropWhile p = []
  · exact .inl hnil
  · have hlast := List.rdropWhile_last_not p cs hnil
    exact .inr ⟨_, _, by simpa using hlast, (List.dropLast_concat_getLast hnil).symm⟩

namespace Paired

variable {a b : List Char}

theorem append (ha : Paired a) (hb : Paired b) : Paired (a ++ b) where
  feed before after h := by
    rcases occurs_append h with ⟨more, ha', -⟩ | ⟨more, rfl, hb'⟩
    · exact ha.feed before more ha'
    · rw [List.getLast?_append, hb.feed more after hb', Option.some_or]
  carriage before after h := by
    rcases occurs_append h with ⟨more, ha', rfl⟩ | ⟨more, -, hb'⟩
    · rw [List.head?_append, ha.carriage before more ha', Option.some_or]
    · exact hb.carriage more after hb'

/-- Between two parts of a text no pair is split, unless the cut is made inside of one. -/
theorem of_append (h : Paired (a ++ b))
    (hcut : ¬(a.getLast? = some '\r' ∧ b.head? = some '\n')) : Paired a ∧ Paired b := by
  refine ⟨⟨fun before after ha => ?_, fun before after ha => ?_⟩,
    ⟨fun before after hb => ?_, fun before after hb => ?_⟩⟩
  · exact h.feed before (after ++ b) (by rw [ha, List.append_assoc, List.cons_append])
  · have hhead := h.carriage before (after ++ b) (by rw [ha, List.append_assoc, List.cons_append])
    cases after with
    | nil => exact absurd ⟨by rw [ha, List.getLast?_concat], hhead⟩ hcut
    | cons c after => exact hhead
  · have hlast := h.feed (a ++ before) after (by rw [hb, List.append_assoc])
    rw [List.getLast?_append, Option.or_eq_some_iff, List.getLast?_eq_none_iff] at hlast
    rcases hlast with hlast | ⟨rfl, hlast⟩
    · exact hlast
    · exact absurd ⟨hlast, by rw [hb]; rfl⟩ hcut
  · exact h.carriage (a ++ before) after (by rw [hb, List.append_assoc])

theorem feed_mem (h : Paired a) (hbreak : ∃ c ∈ a, isBreak c = true) : '\n' ∈ a := by
  obtain ⟨c, hc, hbreak⟩ := hbreak
  rw [isBreak, Bool.or_eq_true, beq_iff_eq, beq_iff_eq] at hbreak
  rcases hbreak with rfl | rfl
  · exact hc
  · obtain ⟨before, after, rfl⟩ := List.append_of_mem hc
    have hfeed := List.mem_of_mem_head? (h.carriage before after rfl)
    exact List.mem_append_right before (List.mem_cons_of_mem _ hfeed)

end Paired

namespace Uniform

variable {ending : LineEnding} {a b : List Char}

theorem append (ha : Uniform ending a) (hb : Uniform ending b) : Uniform ending (a ++ b) := by
  cases ending with
  | lf => exact fun h => (List.mem_append.1 h).elim ha hb
  | crlf => exact Paired.append ha hb

theorem of_append (h : Uniform ending (a ++ b))
    (hcut : ¬(a.getLast? = some '\r' ∧ b.head? = some '\n')) :
    Uniform ending a ∧ Uniform ending b := by
  cases ending with
  | lf => exact ⟨fun ha => h (List.mem_append_left b ha), fun hb => h (List.mem_append_right a hb)⟩
  | crlf => exact Paired.of_append h hcut

theorem of_oneLine (h : OneLine a) : Uniform ending a := by
  have hfeed : '\n' ∉ a := fun hc => absurd (h _ hc) (by decide)
  have hcarriage : '\r' ∉ a := fun hc => absurd (h _ hc) (by decide)
  cases ending with
  | lf => exact hcarriage
  | crlf =>
    refine ⟨?_, ?_⟩
    · rintro before after rfl
      exact absurd (by simp) hfeed
    · rintro before after rfl
      exact absurd (by simp) hcarriage

theorem text (ending : LineEnding) : Uniform ending ending.text := by
  cases ending with
  | lf => exact fun h => absurd (List.mem_singleton.1 h) (by decide)
  | crlf =>
    refine ⟨fun before after h => ?_, fun before after h => ?_⟩
    · rcases before with _ | ⟨c, _ | ⟨d, before⟩⟩
      · cases (List.cons.inj h).1
      · rw [← (List.cons.inj h).1]
        rfl
      · simp [LineEnding.text] at h
    · rcases before with _ | ⟨c, _ | ⟨d, before⟩⟩
      · rw [← (List.cons.inj h).2]
        rfl
      · cases (List.cons.inj (List.cons.inj h).2).1
      · simp [LineEnding.text] at h

end Uniform

/-! ## The last character of a token -/

theorem fits_nil (t : Token) : Fits t [] := by
  have hoperator : endsOperator [] := .inl (stops_nil _)
  unfold Fits
  split
  · exact .inr (stops_nil _)
  · split
    · exact stops_nil _
    · exact fun _ => stops_nil _
    · exact stops_nil _
    · exact fun _ => stops_nil _
    · rfl
    · exact ⟨stops_nil _, rfl⟩
    · exact stops_nil _
    · split
      · exact .inr (stops_nil _)
      · exact ⟨hoperator, nofun⟩
    · split
      · exact .inr (stops_nil _)
      · exact ⟨hoperator, nofun⟩
    · trivial

section Last

variable {c : Char} {cs : List Char}

theorem getLast?_of_commentRest? {depth : Nat} (h : commentRest? depth cs = some []) :
    cs.getLast? = some '/' := by
  induction hn : cs.length using Nat.strongRecOn generalizing depth cs with
  | ind n ih =>
    match cs with
    | [] => cases h
    | [_] => cases h
    | a :: b :: cs =>
      simp only [List.length_cons] at hn
      rw [commentRest?_cons] at h
      have hrest {depth : Nat} (h : commentRest? depth cs = some []) :
          (a :: b :: cs).getLast? = some '/' := by
        have hlast := ih cs.length (by omega) h rfl
        rw [List.getLast?_cons, List.getLast?_cons, hlast]
        rfl
      split at h
      · exact hrest h
      · split at h
        · rename_i hclose
          split at h
          · rw [Option.some.inj h, hclose.2]
            rfl
          · exact hrest h
        · have hlast := ih (b :: cs).length (by simp; omega) h rfl
          rw [List.getLast?_cons, hlast]
          rfl

theorem getLast?_of_closeName? (h : (closeName? cs).map Subtype.val = some []) :
    cs.getLast? = some '\x60' := by
  rw [closeName?_val] at h
  split at h
  · rename_i rest hdrop
    rw [← List.takeWhile_append_dropWhile (p := goesOn) (l := cs), hdrop, Option.some.inj h]
    exact List.getLast?_concat
  · cases h

theorem forall_of_numberTail (h : (numberTail cs).1 = []) :
    ∀ c ∈ cs, isNamePart c = true ∨ c = '.' := by
  induction hn : cs.length using Nat.strongRecOn generalizing cs with
  | ind n ih =>
    rw [numberTail_val] at h
    rw [← List.takeWhile_append_dropWhile (p := isNamePart) (l := cs), List.forall_mem_append]
    refine ⟨fun c hc => .inl (List.mem_takeWhile_imp hc), ?_⟩
    have hlen := (List.dropWhile_suffix isNamePart (l := cs)).length_le
    split at h
    · rename_i d more hdrop
      rw [hdrop] at hlen ⊢
      split at h
      · have hshorter : (d :: more).length < n := by
          simp only [List.length_cons] at hlen ⊢
          omega
        exact List.forall_mem_cons.2 ⟨.inr rfl, ih _ hshorter h rfl⟩
      · cases h
    · rw [h]
      exact List.forall_mem_nil _

theorem forall_of_rangeTail (h : (rangeTail cs).1 = []) : ∀ c ∈ cs, c = '.' ∨ c = '<' := by
  rw [rangeTail_val] at h
  rw [← List.takeWhile_append_dropWhile (p := (· == '.')) (l := cs), List.forall_mem_append]
  refine ⟨fun c hc => .inl (beq_iff_eq.1 (List.mem_takeWhile_imp (p := (· == '.')) hc)), ?_⟩
  split at h
  · rename_i rest hdrop
    rw [hdrop, h]
    simp
  · rw [h]
    exact List.forall_mem_nil _

theorem forall_of_operatorTail (h : (operatorTail cs).1 = []) :
    ∀ c ∈ cs, isOperatorChar c = true := by
  induction cs with
  | nil => exact List.forall_mem_nil _
  | cons c cs ih =>
    rw [operatorTail_cons] at h
    split at h
    · cases h
    · rename_i hc
      simp only [Bool.or_eq_true, Bool.not_eq_true', not_or, Bool.not_eq_false] at hc
      exact List.forall_mem_cons.2 ⟨hc.1, ih h⟩

theorem getLast?_of_scanString {fence : Fence} {start body : List Char}
    (hopen : Fence.open? cs = some (fence, body))
    (hscan : restOf (scanString fence start body) = some []) :
    cs.getLast? = some '"' ∨ cs.getLast? = some '#' := by
  obtain ⟨hbody, -⟩ := pieces_of_scan hscan
  rw [Fence.open?_eq_some hopen, hbody, List.append_nil, ← List.append_assoc, List.getLast?_append]
  obtain ⟨pounds, multiline⟩ := fence
  cases pounds with
  | zero => cases multiline <;> exact .inl rfl
  | succ n =>
    rw [Fence.closing, List.replicate_succ', ← List.append_assoc, List.getLast?_concat]
    exact .inr rfl

theorem not_carriage_of_cut? {kind : TokenKind} (h : cut? c cs = some (kind, []))
    (hc : c ≠ '\r') : (c :: cs).getLast? ≠ some '\r' := by
  intro hlast
  have hrest : cs.getLast? = some '\r' := by
    cases cs with
    | nil => exact absurd (Option.some.inj hlast) hc
    | cons d cs => rwa [List.getLast?_cons_cons] at hlast
  have hmem : '\r' ∈ cs := List.mem_of_getLast? hrest
  have hsome : cs ≠ [] := List.ne_nil_of_mem hmem
  -- A run of characters that are no carriage returns does not take all there is.
  have hrun {p : Char → Bool} (hp : p '\r' = false) (h : cs.dropWhile p = []) : False := by
    rw [List.dropWhile_eq_nil_iff.1 h _ hmem] at hp
    cases hp
  have hother {d : Char} (h : cs.getLast? = some d) (hd : d ≠ '\r') : False :=
    hd (Option.some.inj (h.symm.trans hrest))
  revert h
  apply cut?.fun_cases_unfolding c cs (motive := fun cut => cut = some (kind, []) → False)
  case case1 => exact fun _ h => hrun (by decide) (Prod.mk.inj (Option.some.inj h)).2
  case case3 => exact fun _ _ hcarriage _ => hc hcarriage
  case case4 => exact fun _ _ _ _ h => hrun (by decide) (Prod.mk.inj (Option.some.inj h)).2
  case case5 =>
    intro _ _ _ _ _ h
    obtain ⟨rest, hclose, heq⟩ := Option.map_eq_some_iff.1 h
    rw [(Prod.mk.inj heq).2] at hclose
    have hslash := getLast?_of_commentRest? hclose
    rw [List.getLast?_drop] at hslash
    split at hslash
    · cases hslash
    · exact hother hslash (by decide)
  case case6 =>
    intro _ _ _ _ _ fence body hopen h
    obtain ⟨rest, hscan, heq⟩ := Option.map_eq_some_iff.1 h
    rw [(Prod.mk.inj heq).2] at hscan
    rcases getLast?_of_scanString hopen hscan with hend | hend
    · cases hlast.symm.trans hend
    · cases hlast.symm.trans hend
  case case8 =>
    intro _ _ _ _ _ _ _ _ h
    obtain ⟨rest, hclose, heq⟩ := Option.map_eq_some_iff.1 h
    rw [(Prod.mk.inj heq).2] at hclose
    exact hother (getLast?_of_closeName? hclose) (by decide)
  case case9 =>
    exact fun _ _ _ _ _ _ _ _ _ h => hrun (by decide) (Prod.mk.inj (Option.some.inj h)).2
  case case10 =>
    intro _ _ _ _ _ _ _ _ _ _ h
    have hnumber := forall_of_numberTail (Prod.mk.inj (Option.some.inj h)).2 _ hmem
    revert hnumber
    decide
  case case11 =>
    exact fun _ _ _ _ _ _ _ _ _ _ _ h => hrun (by decide) (Prod.mk.inj (Option.some.inj h)).2
  case case13 =>
    intro _ _ _ _ _ _ _ _ _ _ _ _ _ _ h
    have hrange := forall_of_rangeTail (Prod.mk.inj (Option.some.inj h)).2 _ hmem
    revert hrange
    decide
  case case15 =>
    intro _ _ _ _ _ _ _ _ _ _ _ _ _ _ h
    have hoperator := forall_of_operatorTail (Prod.mk.inj (Option.some.inj h)).2 _ hmem
    revert hoperator
    decide
  case case16 =>
    intro _ _ _ _ _ _ _ _ _ _ _ _ _ _ h
    cases h
  case case2 => exact fun _ _ h => hsome (Prod.mk.inj (Option.some.inj h)).2
  case case7 => exact fun _ _ _ _ _ _ _ h => hsome (Prod.mk.inj (Option.some.inj h)).2
  case case12 =>
    exact fun _ _ _ _ _ _ _ _ _ _ _ _ _ h => hsome (Prod.mk.inj (Option.some.inj h)).2
  case case14 =>
    exact fun _ _ _ _ _ _ _ _ _ _ _ _ _ _ h => hsome (Prod.mk.inj (Option.some.inj h)).2

end Last

/-- A carriage return and the line feed behind it belong to one token. -/
theorem Cuts.whole_pair {t : Token} {rest : List Char} (h : Cuts t rest) :
    ¬(t.text.getLast? = some '\r' ∧ rest.head? = some '\n') := by
  rintro ⟨hlast, hhead⟩
  obtain ⟨c, cs, htext, hcut⟩ := cuts_iff.1 (h.of_fits (fits_nil t))
  rw [List.append_nil] at hcut
  rw [htext] at hlast
  by_cases hc : c = '\r'
  · subst hc
    -- Such a token is the carriage return alone, behind which the rules want no line feed.
    have hnewline : some (TokenKind.newline, afterReturn cs) = some (t.kind, []) := hcut
    obtain ⟨hkind, hrest⟩ := Prod.mk.inj (Option.some.inj hnewline)
    have hfits := h.fits
    rw [Fits, ← hkind] at hfits
    cases cs with
    | nil =>
      have hstops := hfits htext '\n' hhead
      cases hstops
    | cons d cs =>
      rw [afterReturn_cons] at hrest
      split at hrest
      · rename_i hd
        rw [hd, hrest] at hlast
        cases hlast
      · cases hrest
  · exact not_carriage_of_cut? hcut hc hlast

/-! ## Uniform texts and their tokens -/

def UniformTokens (ending : LineEnding) (ts : List Token) : Prop :=
  ∀ t ∈ ts, Uniform ending t.text

section Tokens

variable {ending : LineEnding} {t : Token} {ts us : List Token}

@[simp] theorem uniformTokens_nil : UniformTokens ending [] := List.forall_mem_nil _

@[simp] theorem uniformTokens_cons :
    UniformTokens ending (t :: ts) ↔ Uniform ending t.text ∧ UniformTokens ending ts :=
  List.forall_mem_cons

@[simp] theorem uniformTokens_append :
    UniformTokens ending (ts ++ us) ↔ UniformTokens ending ts ∧ UniformTokens ending us :=
  List.forall_mem_append

theorem UniformTokens.textOf (h : UniformTokens ending ts) : Uniform ending (textOf ts) := by
  induction ts with
  | nil => exact .of_oneLine oneLine_nil
  | cons t ts ih =>
    obtain ⟨ht, hts⟩ := uniformTokens_cons.1 h
    exact ht.append (ih hts)

theorem uniformTokens_of_lexed (hlexed : Lexed ts []) (h : Uniform ending (textOf ts)) :
    UniformTokens ending ts := by
  induction ts with
  | nil => exact uniformTokens_nil
  | cons t ts ih =>
    obtain ⟨hcut, hmore⟩ := hlexed
    rw [List.append_nil] at hcut
    obtain ⟨ht, hts⟩ := Uniform.of_append h hcut.whole_pair
    exact uniformTokens_cons.2 ⟨ht, ih hmore hts⟩

theorem uniformTokens_of_oneLine (h : OneLine (Source.textOf ts)) : UniformTokens ending ts :=
  fun _ ht => .of_oneLine fun c hc => h c (List.mem_flatMap_of_mem ht hc)

end Tokens

/-! ## The line ending of a text -/

theorem detectFrom_feed (last : Option Char) {before : List Char} (h : '\n' ∉ before)
    (after : List Char) :
    LineEnding.detectFrom last (before ++ '\n' :: after) =
      if before.getLast?.or last = some '\r' then .crlf else .lf := by
  induction before generalizing last with
  | nil => rfl
  | cons c before ih =>
    obtain ⟨hc, hbefore⟩ := not_or.1 (mt List.mem_cons.2 h)
    rw [List.cons_append, LineEnding.detectFrom, if_neg (Ne.symm hc), ih (some c) hbefore,
      List.getLast?_cons, Option.some_or]
    cases before.getLast? <;> rfl

theorem detect_lf {cs : List Char} (h : '\r' ∉ cs) : LineEnding.detect cs = .lf := by
  by_cases hfeed : '\n' ∈ cs
  · obtain ⟨before, after, rfl, hbefore⟩ := List.eq_append_cons_of_mem hfeed
    rw [LineEnding.detect, detectFrom_feed none hbefore, Option.or_none, if_neg]
    exact fun hlast => h (List.mem_append_left _ (List.mem_of_getLast? hlast))
  · have hnone (last : Option Char) : LineEnding.detectFrom last cs = .lf := by
      clear h
      induction cs generalizing last with
      | nil => rfl
      | cons c cs ih =>
        obtain ⟨hc, hcs⟩ := not_or.1 (mt List.mem_cons.2 hfeed)
        rw [LineEnding.detectFrom, if_neg (Ne.symm hc), ih hcs]
    exact hnone none

theorem detect_crlf {cs : List Char} (h : Paired cs) (hfeed : '\n' ∈ cs) :
    LineEnding.detect cs = .crlf := by
  obtain ⟨before, after, rfl, hbefore⟩ := List.eq_append_cons_of_mem hfeed
  rw [LineEnding.detect, detectFrom_feed none hbefore, Option.or_none,
    if_pos (h.feed before after rfl)]

end PackageManifest.Proofs.Lexing
