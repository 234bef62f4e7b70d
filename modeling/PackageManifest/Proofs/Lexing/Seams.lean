import PackageManifest.Edit.Elements
import PackageManifest.Layout
import PackageManifest.Proofs.Grammar.Completeness
import PackageManifest.Proofs.Grammar.Ends
import PackageManifest.Proofs.Lexing.Placement
import PackageManifest.Proofs.Lexing.Splice

/-!
# Seams between old and new tokens

`Relexes old new` says that `new` may take the place of `old` in any list of tokens that is its own
cut. What an edit writes is a comma behind an expression, a line break behind something that a line
break ends, or a blank behind a comma, and an expression in front of trivia, a comma or a closing
delimiter, so these are the seams to look at.
-/

namespace PackageManifest.Proofs.Lexing

open Source Grammar

/-- Wherever `old` is cut, `new` is cut in its place. -/
def Relexes (old new : List Token) : Prop :=
  ∀ before after rest, Lexed (before ++ old ++ after) rest → Lexed (before ++ new ++ after) rest

namespace Relexes

variable {old mid new : List Token}

theorem refl (ts : List Token) : Relexes ts ts := fun _ _ _ h => h

theorem trans (h : Relexes old mid) (h' : Relexes mid new) : Relexes old new :=
  fun before after rest hold => h' before after rest (h before after rest hold)

theorem around (h : Relexes old new) (left right : List Token) :
    Relexes (left ++ old ++ right) (left ++ new ++ right) := by
  intro before after rest hold
  have hcut := h (before ++ left) (right ++ after) rest
  simp only [List.append_assoc] at hold hcut ⊢
  exact hcut hold

theorem append_left (h : Relexes old new) (left : List Token) :
    Relexes (left ++ old) (left ++ new) := by
  have := h.around left []
  rwa [List.append_nil, List.append_nil] at this

end Relexes

/-- Tokens that are cut the same way whatever stands behind them. -/
def Free (ts : List Token) : Prop := ∀ rest, Lexed ts rest

theorem Free.append {ts us : List Token} (hts : Free ts) (hus : Free us) : Free (ts ++ us) :=
  fun rest => lexed_append.2 ⟨hts _, hus rest⟩

/-- In front of the tokens `behind`, wherever these are their own cut, so is `new`. -/
def CutBefore (new behind : List Token) : Prop :=
  ∀ rest, Lexed behind rest → Lexed new (textOf behind ++ rest)

theorem Free.cutBefore {ts : List Token} (h : Free ts) (behind : List Token) :
    CutBefore ts behind := fun _ _ => h _

theorem relexes_between {u : Token} {old new behind : List Token} (hdot : u.kind ≠ .dot)
    (hu : ∀ rest, Lexed (u :: (old ++ behind)) rest → Fits u (textOf (new ++ behind) ++ rest))
    (hnew : CutBefore new behind) : Relexes (u :: (old ++ behind)) (u :: (new ++ behind)) := by
  intro before after rest hold
  rw [List.append_assoc] at hold ⊢
  obtain ⟨hcut, _⟩ := lexed_append.1 (lexed_append.1 hold).2
  obtain ⟨_, hbehind⟩ := lexed_append.1 hcut.2
  exact hold.splice (hu _ hcut) hdot (lexed_append.2 ⟨hnew _ hbehind, hbehind⟩)

theorem relexes_behind {u : Token} {old new : List Token} (hdot : u.kind ≠ .dot)
    (hu : ∀ rest, Fits u (textOf new ++ rest)) (hnew : Free new) :
    Relexes (u :: old) (u :: new) := by
  have hseam : Relexes (u :: (old ++ [])) (u :: (new ++ [])) :=
    relexes_between hdot (fun rest _ => by simpa using hu rest) (hnew.cutBefore [])
  rwa [List.append_nil, List.append_nil] at hseam

theorem lexed_middle {before ts after : List Token} {rest : List Char}
    (h : Lexed (before ++ ts ++ after) rest) : ∃ rest, Lexed ts rest := by
  rw [List.append_assoc] at h
  exact ⟨_, (lexed_append.1 (lexed_append.1 h).2).1⟩

/-! ## New tokens -/

def isMark : TokenKind → Bool
  | .comma | .colon | .lParen | .rParen | .lBracket | .rBracket => true
  | _ => false

theorem fits_of_isMark {t : Token} (h : isMark t.kind = true) (rest : List Char) : Fits t rest := by
  unfold Fits
  cases hkind : t.kind <;> rw [hkind] at h <;> trivial

theorem cuts_mark {c : Char} {kind : TokenKind} (h : cut? c [] = some (kind, []))
    (hkind : isMark kind = true) (rest : List Char) : Cuts ⟨kind, [c]⟩ rest := by
  have hcuts : Cuts ⟨kind, [c]⟩ [] := cuts_iff.2 ⟨c, [], rfl, h⟩
  exact hcuts.of_fits (fits_of_isMark hkind rest)

theorem cuts_comma (rest : List Char) : Cuts ⟨.comma, [',']⟩ rest :=
  cuts_mark (by decide) rfl rest

theorem cuts_lineEnding (e : LineEnding) (rest : List Char) : Cuts ⟨.newline, e.text⟩ rest := by
  have h : Cuts ⟨.newline, e.text⟩ [] := by
    cases e with
    | lf => exact cuts_iff.2 ⟨'\n', [], rfl, by decide⟩
    | crlf => exact cuts_iff.2 ⟨'\r', ['\n'], rfl, by decide⟩
  refine h.of_fits fun htext => ?_
  cases e <;> cases htext

theorem cuts_blank {blank rest : List Char} (hne : blank ≠ [])
    (hall : ∀ c ∈ blank, isSpace c = true) (hrest : Stops isSpace rest) :
    Cuts ⟨.whitespace, blank⟩ rest := by
  cases blank with
  | nil => exact absurd rfl hne
  | cons c cs =>
    refine cuts_iff.2 ⟨c, cs, rfl, ?_⟩
    rw [cut?, if_pos (hall c (List.mem_cons_self ..)),
      dropWhile_append_eq_iff.2 ⟨fun d hd => hall d (List.mem_cons_of_mem c hd), hrest⟩]

theorem cuts_space {rest : List Char} (hrest : Stops isSpace rest) :
    Cuts ⟨.whitespace, [' ']⟩ rest := by
  refine cuts_blank (List.cons_ne_nil _ _) (fun c hc => ?_) hrest
  rw [List.mem_singleton.1 hc]
  rfl

theorem eq_of_mem_render {style : IndentStyle} {level : Nat} {c : Char}
    (h : c ∈ style.render level) : c = ' ' ∨ c = '\t' := by
  unfold IndentStyle.render at h
  split at h
  · exact .inr (List.eq_of_mem_replicate h)
  · exact .inl (List.eq_of_mem_replicate h)

theorem lexed_newLine (layout : Layout) (level : Nat) {rest : List Char}
    (hrest : Stops isSpace rest) : Lexed (layout.newLine level) rest := by
  rw [Layout.newLine, newlineAndIndent]
  refine ⟨cuts_lineEnding _ _, ?_⟩
  split
  · trivial
  · rename_i hne
    refine ⟨cuts_blank (by simpa using hne) ?_ hrest, trivial⟩
    intro c hc
    rcases eq_of_mem_render hc with rfl | rfl <;> decide

theorem head_newLine (layout : Layout) (level : Nat) :
    ∃ c cs, textOf (layout.newLine level) = c :: cs ∧ isBreak c = true := by
  rw [Layout.newLine, newlineAndIndent, textOf_cons]
  cases layout.lineEnding with
  | lf => exact ⟨'\n', _, rfl, by decide⟩
  | crlf => exact ⟨'\r', _, rfl, by decide⟩

theorem Cuts.stops {t : Token} {rest : List Char} (h : Cuts t rest) (hkind : t.kind ≠ .whitespace)
    (more : List Char) : Stops isSpace (t.text ++ more) := by
  obtain ⟨c, cs, htext, hcut⟩ := cuts_iff.1 h
  rw [htext, List.cons_append, stops_cons, Bool.eq_false_iff]
  intro hspace
  rw [cut?, if_pos hspace] at hcut
  exact hkind (Prod.mk.inj (Option.some.inj hcut)).1.symm

theorem Cuts.stops_break {t : Token} {rest : List Char} (h : Cuts t rest)
    (hkind : t.kind ≠ .newline) (more : List Char) : Stops isBreak (t.text ++ more) := by
  obtain ⟨c, cs, htext, hcut⟩ := cuts_iff.1 h
  have not_break {other : List Char} : some (.newline, other) ≠ some (t.kind, rest) := fun heq =>
    hkind (Prod.mk.inj (Option.some.inj heq)).1.symm
  rw [htext, List.cons_append, stops_cons, Bool.eq_false_iff]
  intro hbreak
  rw [isBreak, Bool.or_eq_true, beq_iff_eq, beq_iff_eq] at hbreak
  rcases hbreak with rfl | rfl
  · exact not_break hcut
  · exact not_break hcut

theorem headed_first {t : Tree} {rest : List Char} (h : Headed t) (hlexed : Lexed t.tokens rest) :
    ∃ u more rest', t.text = u.text ++ more ∧ Cuts u rest' ∧ startsOperand u.kind = true := by
  unfold Tree.text
  have hstarts := h.starts
  cases htokens : t.tokens with
  | nil => exact absurd htokens h.ne_nil
  | cons u us =>
    rw [htokens] at hlexed hstarts
    exact ⟨u, textOf us, _, rfl, hlexed.1, hstarts⟩

theorem stops_of_headed {t : Tree} {rest : List Char} (h : Headed t) (hlexed : Lexed t.tokens rest)
    (more : List Char) : Stops isSpace (t.text ++ more) := by
  obtain ⟨u, us, _, htext, hcuts, hstarts⟩ := headed_first h hlexed
  rw [htext, List.append_assoc]
  refine hcuts.stops (fun hkind => ?_) _
  rw [hkind] at hstarts
  cases hstarts

theorem stops_break_of_headed {t : Tree} {rest : List Char} (h : Headed t)
    (hlexed : Lexed t.tokens rest) (more : List Char) : Stops isBreak (t.text ++ more) := by
  obtain ⟨u, us, _, htext, hcuts, hstarts⟩ := headed_first h hlexed
  rw [htext, List.append_assoc]
  refine hcuts.stops_break (fun hkind => ?_) _
  rw [hkind] at hstarts
  cases hstarts

def word (name : List Char) : Token := ⟨(TokenKind.ofWord? name).getD .ident, name⟩

theorem isNameLike_word (name : List Char) : (word name).kind.isNameLike = true :=
  isNameLike_ofWord? name

def IsWord (name : List Char) : Prop := Cuts (word name) []

theorem IsWord.cuts {name rest : List Char} (h : IsWord name) (hrest : Stops isNamePart rest) :
    Cuts (word name) rest := by
  refine Cuts.of_fits h ?_
  rw [Fits, if_pos (isNameLike_word name)]
  exact .inr hrest

theorem IsWord.stops {name : List Char} (h : IsWord name) (rest : List Char) :
    Stops isSpace (name ++ rest) := by
  refine Cuts.stops h (fun hkind => ?_) rest
  have hname := isNameLike_word name
  rw [hkind] at hname
  cases hname

/-! ## Tokens by their first character -/

/-- A character that does not go on with the last token of an expression. -/
structure Outside (c : Char) : Prop where
  name : isNamePart c = false
  quote : c ≠ '"'
  point : c ≠ '.'

instance (c : Char) : Decidable (Outside c) :=
  decidable_of_iff (isNamePart c = false ∧ c ≠ '"' ∧ c ≠ '.')
    ⟨fun h => ⟨h.1, h.2.1, h.2.2⟩, fun h => ⟨h.name, h.quote, h.point⟩⟩

theorem outside_of_isSpace {c : Char} (h : isSpace c = true) : Outside c := by
  simp only [isSpace, Bool.or_eq_true, beq_iff_eq] at h
  rcases h with ((rfl | rfl) | rfl) | rfl <;> decide

theorem outside_of_isBreak {c : Char} (h : isBreak c = true) : Outside c := by
  simp only [isBreak, Bool.or_eq_true, beq_iff_eq] at h
  rcases h with rfl | rfl <;> decide

theorem outside_of_punctuation? {c : Char} {kind : TokenKind} (h : punctuation? c = some kind) :
    Outside c := by
  unfold punctuation? at h
  split at h <;> first | decide | cases h

def isOther : TokenKind → Bool
  | .stringLit | .numberLit | .pound | .dot | .equals | .operator | .unknown => true
  | _ => false

inductive BeginsWith (c : Char) (t : Token) : Prop where
  | trivia (hc : Outside c) (ht : t.kind.isTrivia = true)
  | word (ht : t = word t.text)
  | mark (hc : punctuation? c = some t.kind) (ht : t.text = [c])
  | other (ht : isOther t.kind = true)

theorem beginsWith_lexeme (c : Char) (cs : List Char) : BeginsWith c (lexeme c cs).token := by
  have quoted {c : Char} (hc : c = '\x60' ∨ c = '$') (cs : List Char) :
      (⟨.ident, c :: cs⟩ : Token) = word (c :: cs) := by
    rcases hc with rfl | rfl <;> simp [word, TokenKind.ofWord?]
  apply lexeme.fun_cases_unfolding c (motive := fun _ l => BeginsWith c l.token)
  case case1 => exact fun _ hspace => .trivia (outside_of_isSpace hspace) rfl
  case case2 =>
    rintro _ _ rfl
    exact .trivia (by decide) rfl
  case case3 =>
    rintro _ _ rfl _
    exact .trivia (by decide) rfl
  case case4 =>
    rintro _ _ rfl _ _
    exact .trivia (by decide) rfl
  case case5 =>
    rintro _ _ _ _ ⟨rfl, _⟩
    exact .trivia (by decide) rfl
  case case6 =>
    rintro _ _ _ _ _ ⟨rfl, _⟩ _ _
    exact .trivia (by decide) rfl
  case case7 =>
    rintro _ _ _ _ _ ⟨rfl, _⟩ _
    exact .trivia (by decide) rfl
  case case11 =>
    rintro cs _ _ _ _ _ _ _ htick rest _
    exact .word (quoted (.inl htick) _)
  case case13 =>
    rintro cs _ _ _ _ _ _ _ _ hdollar
    exact .word (quoted (.inr hdollar) _)
  case case15 =>
    intros
    exact .word rfl
  case case16 =>
    intro cs _ _ _ _ _ _ _ _ _ _ _ kind hkind
    exact .mark hkind rfl
  case case19 =>
    intro cs _ _ _ _ _ _ _ _ _ _ _ _ _ _ rest
    refine .other ?_
    change isOther (if c = '=' ∧ rest.1 = cs then .equals else .operator) = true
    split <;> rfl
  all_goals
    intros
    exact .other rfl

theorem Cuts.beginsWith {t : Token} {rest : List Char} (h : Cuts t rest) :
    ∃ c cs, t.text = c :: cs ∧ BeginsWith c t := by
  obtain ⟨c, cs, htext, rfl, _⟩ := h
  exact ⟨c, cs, htext, beginsWith_lexeme c _⟩

theorem kind_of_punctuation? {c : Char} {kind : TokenKind} (h : punctuation? c = some kind) :
    kind.isTrivia = false ∧ kind.isNameLike = false ∧ isOther kind = false := by
  unfold punctuation? at h
  split at h <;> cases h <;> decide

theorem kind_of_isNameLike {kind : TokenKind} (h : kind.isNameLike = true) :
    kind.isTrivia = false ∧ isOther kind = false := by
  cases kind <;> first | exact ⟨rfl, rfl⟩ | cases h

theorem Cuts.eq_word {t : Token} {rest : List Char} (h : Cuts t rest)
    (ht : t.kind.isNameLike = true) : t = word t.text := by
  obtain ⟨c, cs, -, hc⟩ := h.beginsWith
  obtain ⟨htrivia, hother⟩ := kind_of_isNameLike ht
  cases hc with
  | trivia _ h => exact absurd (htrivia.symm.trans h) Bool.false_ne_true
  | word h => exact h
  | mark h => exact absurd ((kind_of_punctuation? h).2.1.symm.trans ht) Bool.false_ne_true
  | other h => exact absurd (hother.symm.trans h) Bool.false_ne_true

theorem isWord_of_tokens {name : List Char} {t : Token} (hfaults : faults name = [])
    (htokens : tokens name = [t]) (ht : t.kind.isNameLike = true) : IsWord name := by
  have hlexed := lexed_tokens hfaults
  have htext := textOf_tokens name
  rw [htokens] at hlexed htext
  obtain rfl : t.text = name := by simpa using htext
  rw [IsWord, ← hlexed.1.eq_word ht]
  exact hlexed.1

theorem punctuation?_inj {c d : Char} {kind : TokenKind} (hc : punctuation? c = some kind)
    (hd : punctuation? d = some kind) : c = d := by
  unfold punctuation? at hc
  split at hc <;> cases hc <;> unfold punctuation? at hd <;> split at hd <;>
    first | rfl | cases hd

theorem Cuts.eq_mark {t : Token} {rest : List Char} {kind : TokenKind} (h : Cuts t rest) (c : Char)
    (hkind : t.kind = kind) (hc : punctuation? c = some kind) : t = ⟨kind, [c]⟩ := by
  subst hkind
  obtain ⟨htrivia, hname, hother⟩ := kind_of_punctuation? hc
  obtain ⟨d, ds, -, hd⟩ := h.beginsWith
  cases hd with
  | trivia _ ht => exact absurd (htrivia.symm.trans ht) Bool.false_ne_true
  | word ht =>
    rw [ht, isNameLike_word] at hname
    cases hname
  | mark hd ht => rw [punctuation?_inj hc hd, ← ht]
  | other ht => exact absurd (hother.symm.trans ht) Bool.false_ne_true

/-! ## Seams -/

def followsValue (kind : TokenKind) : Bool := kind.isTrivia || kind == .comma || kind.isClosing

theorem followsValue_of_isNameLike {kind : TokenKind} (h : kind.isNameLike = true) :
    followsValue kind = false := by
  cases kind <;> first | rfl | cases h

theorem followsValue_of_isOther {kind : TokenKind} (h : isOther kind = true) :
    followsValue kind = false := by
  cases kind <;> first | rfl | cases h

theorem BeginsWith.outside {c : Char} {t : Token} (h : BeginsWith c t)
    (ht : followsValue t.kind = true) : Outside c := by
  cases h with
  | trivia hc => exact hc
  | word hword =>
    rw [hword] at ht
    have hname := isNameLike_word t.text
    exact absurd ((followsValue_of_isNameLike hname).symm.trans ht) Bool.false_ne_true
  | mark hc => exact outside_of_punctuation? hc
  | other hother =>
    exact absurd ((followsValue_of_isOther hother).symm.trans ht) Bool.false_ne_true

/-- Whether a text does not go on with the last token of an expression. It may be empty. -/
def Apart (rest : List Char) : Prop := ∀ c ∈ rest.head?, Outside c

theorem apart_nil : Apart [] := nofun

theorem Outside.apart {c : Char} (hc : Outside c) (cs : List Char) : Apart (c :: cs) := by
  rintro _ ⟨⟩
  exact hc

theorem fits_of_endsOperand {u : Token} {rest : List Char} (hu : endsOperand u.kind = true)
    (hrest : Apart rest) : Fits u rest := by
  have hname : Stops isNamePart rest := fun c hc => (hrest c hc).name
  unfold Fits
  split
  · exact .inr hname
  · cases hkind : u.kind <;> simp only [hkind] at hu ⊢ <;> try cases hu
    · exact fun _ c hc => beq_eq_false_iff_ne.2 (hrest c hc).quote
    · refine ⟨hname, ?_⟩
      unfold startsFraction
      split
      · exact absurd rfl (hrest '.' rfl).point
      · rfl

/-- An expression is cut in front of a text that does not draw its last token on. -/
theorem Lexed.of_ends {ts : List Token} {rest rest' : List Char} (h : Lexed ts rest)
    (hends : Ends ts) (hrest' : Apart rest') : Lexed ts rest' := by
  obtain ⟨before, u, rfl, hu⟩ := hends
  refine h.of_last (fits_of_endsOperand hu hrest') fun hkind => ?_
  rw [hkind] at hu
  cases hu

/-- Tokens of which the first may stand right behind an expression. -/
def Follows (ts : List Token) : Prop := ∃ u more, ts = u :: more ∧ followsValue u.kind = true

theorem follows_of_trivia {behind more : List Token} {t : Token} (hbehind : AllTrivia behind)
    (ht : followsValue t.kind = true) : Follows (behind ++ t :: more) := by
  cases behind with
  | nil => exact ⟨t, more, rfl, ht⟩
  | cons u behind =>
    have hu : u.kind.isTrivia = true := hbehind u (List.mem_cons_self ..)
    exact ⟨u, behind ++ t :: more, rfl, by rw [followsValue, hu, Bool.true_or, Bool.true_or]⟩

theorem Follows.cutBefore {ts behind : List Token} {rest : List Char} (h : Follows behind)
    (hlexed : Lexed ts rest) (hends : Ends ts) : CutBefore ts behind := by
  obtain ⟨u, more, rfl, hu⟩ := h
  intro rest hbehind
  obtain ⟨c, cs, htext, hc⟩ := hbehind.1.beginsWith
  rw [textOf_cons, htext, List.append_assoc, List.cons_append]
  exact hlexed.of_ends hends ((hc.outside hu).apart _)

def endsLine (u : Token) : Bool :=
  u.kind == .comma || u.kind == .lBracket || u.isInlineTrivia

theorem fits_of_endsLine {u : Token} {c : Char} {cs : List Char} (hu : endsLine u = true)
    (hc : isBreak c = true) : Fits u (c :: cs) := by
  have hspace : isSpace c = false := by
    rw [isBreak, Bool.or_eq_true, beq_iff_eq, beq_iff_eq] at hc
    rcases hc with rfl | rfl <;> decide
  rw [endsLine, Token.isInlineTrivia, Token.isTrivia] at hu
  unfold Fits
  cases hkind : u.kind <;> rw [hkind] at hu <;> try cases hu
  case whitespace => exact stops_cons.2 hspace
  case lineComment => exact stops_cons.2 (by rw [hc]; rfl)
  all_goals trivial

theorem endsLine_ne_dot {u : Token} (hu : endsLine u = true) : u.kind ≠ .dot := by
  intro hkind
  rw [endsLine, Token.isInlineTrivia, Token.isTrivia, hkind] at hu
  cases hu

theorem relexes_comma {u : Token} (hu : endsOperand u.kind = true) :
    Relexes [u] [u, ⟨.comma, [',']⟩] := by
  refine relexes_behind ?_ (fun rest => ?_) fun rest => ⟨cuts_comma _, trivial⟩
  · intro hkind
    rw [hkind] at hu
    cases hu
  · exact fits_of_endsOperand hu (Outside.apart (by decide) rest)

theorem relexes_newLine {u : Token} {new behind : List Token} (layout : Layout) (level : Nat)
    (hu : endsLine u = true) (hstops : ∀ rest, Stops isSpace (textOf new ++ rest))
    (hnew : CutBefore new behind) :
    Relexes (u :: behind) (u :: (layout.newLine level ++ new ++ behind)) := by
  refine @relexes_between u [] _ _ (endsLine_ne_dot hu) (fun rest _ => ?_) fun rest hbehind => ?_
  · obtain ⟨c, cs, htext, hc⟩ := head_newLine layout level
    rw [textOf_append, textOf_append, htext, List.cons_append, List.cons_append, List.cons_append]
    exact fits_of_endsLine hu hc
  · exact lexed_append.2 ⟨lexed_newLine layout level (hstops _), hnew rest hbehind⟩

theorem relexes_oneSpace {u : Token} {new behind : List Token} (hu : u.kind = .comma)
    (hstops : ∀ rest, Stops isSpace (textOf new ++ rest)) (hnew : CutBefore new behind) :
    Relexes (u :: behind) (u :: (oneSpace ++ new ++ behind)) := by
  refine @relexes_between u [] _ _ (by rw [hu]; decide)
    (fun rest _ => fits_of_isMark (by rw [hu]; rfl) _) fun rest hbehind => ?_
  refine lexed_append.2 ⟨⟨cuts_space ?_, trivial⟩, hnew rest hbehind⟩
  rw [textOf_nil, List.nil_append]
  exact hstops _

/-- No line comment stands right before an expression. -/
theorem ne_lineComment_of_headed {u : Token} {t : Tree} {behind : List Token} {rest : List Char}
    (h : Headed t) (hlexed : Lexed (u :: (t.tokens ++ behind)) rest) : u.kind ≠ .lineComment := by
  intro hkind
  have ht := (lexed_append.1 hlexed.2).1
  have hfits := hlexed.1.fits
  simp only [Fits, hkind] at hfits
  obtain ⟨v, more, _, htext, hcuts, _⟩ := headed_first h ht
  have hbreak := stops_break_of_headed h ht (textOf behind ++ rest)
  rw [textOf_append, List.append_assoc, show textOf t.tokens = v.text ++ more from htext] at hfits
  rw [htext] at hbreak
  cases hv : v.text with
  | nil => exact hcuts.text_ne_nil hv
  | cons c cs =>
    rw [hv] at hfits hbreak
    have hline : (!isBreak c) = false := stops_cons.1 hfits
    rw [stops_cons.1 hbreak] at hline
    cases hline

/-- An expression may stand where another one does, behind a colon or trivia. -/
theorem relexes_value {u : Token} {old new : Tree} {behind : List Token} {rest : List Char}
    (hu : u.kind = .colon ∨ u.isTrivia = true) (hold : Headed old) (hnew : Headed new)
    (hends : Ends new.tokens) (hlexed : Lexed new.tokens rest) (hbehind : Follows behind) :
    Relexes (u :: (old.tokens ++ behind)) (u :: (new.tokens ++ behind)) := by
  refine relexes_between ?_ (fun rest hcut => ?_) (hbehind.cutBefore hlexed hends)
  · intro hdot
    rw [Token.isTrivia, hdot] at hu
    rcases hu with hu | hu <;> cases hu
  · rw [textOf_append, List.append_assoc]
    rcases hu with hu | hu
    · exact fits_of_isMark (by rw [hu]; rfl) _
    · rw [Token.isTrivia] at hu
      unfold Fits
      cases hkind : u.kind <;> rw [hkind] at hu <;> try exact absurd hu Bool.false_ne_true
      case whitespace => exact stops_of_headed hnew hlexed _
      case newline =>
        intro _ c hc
        have hbreak := stops_break_of_headed hnew hlexed _ c hc
        rw [isBreak, Bool.or_eq_false_iff] at hbreak
        exact hbreak.1
      case lineComment => exact absurd hkind (ne_lineComment_of_headed hold hcut)
      case blockComment => trivial

end PackageManifest.Proofs.Lexing
