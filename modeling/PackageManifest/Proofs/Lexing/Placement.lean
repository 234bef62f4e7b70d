import PackageManifest.Proofs.Lexing.Cut

/-!
# Where tokens stand

Main statement: `tokens_partition`. Whatever its faults, a text is the tokens it is cut into, one
behind the other: their spans leave no byte out, begin and end where characters do, and hold the
bytes of the token's text. The mark of the end comes last and is the only one.
-/

namespace PackageManifest.Proofs.Lexing

open Source

/-! ## What is cut off -/

theorem punctuation?_ne_eof {c : Char} {kind : TokenKind} (h : punctuation? c = some kind) :
    kind ≠ .eof := by
  rintro rfl
  unfold punctuation? at h
  split at h <;> cases h

/-- No part of a text is taken for its end. Apart from words, marks and operators, every rule names
the kind of its token. -/
theorem lexeme_ne_eof (c : Char) (cs : List Char) : (lexeme c cs).kind ≠ .eof := by
  apply lexeme.fun_cases_unfolding c (motive := fun _ l => l.kind ≠ .eof)
  case case15 =>
    intro cs _ _ _ _ _ _ _ _ _ _ _ heof
    have hname := isNameLike_ofWord? (c :: cs.takeWhile isNamePart)
    rw [show (TokenKind.ofWord? (c :: cs.takeWhile isNamePart)).getD .ident = .eof from heof]
      at hname
    cases hname
  case case16 =>
    intro cs _ _ _ _ _ _ _ _ _ _ _ kind hkind
    exact punctuation?_ne_eof hkind
  case case19 =>
    intro cs _ _ _ _ _ _ _ _ _ _ _ _ _ _ rest
    change (if c = '=' ∧ rest.1 = cs then TokenKind.equals else TokenKind.operator) ≠ .eof
    split <;> exact TokenKind.noConfusion
  all_goals
    intros
    exact TokenKind.noConfusion

theorem mem_tokens {input : List Char} {t : Token} (h : t ∈ tokens input) :
    t.text ≠ [] ∧ t.kind ≠ .eof := by
  induction hn : input.length using Nat.strongRecOn generalizing input with
  | ind n ih =>
    cases input with
    | nil => simp [tokens, lexemes] at h
    | cons c cs =>
      rw [tokens, lexemes_cons, List.map_cons, List.mem_cons] at h
      rcases h with rfl | h
      · exact ⟨(lexeme c cs).nonempty, lexeme_ne_eof c cs⟩
      · have hlt : (lexeme c cs).rest.length < n := hn ▸ (lexeme c cs).length_rest_lt
        exact ih _ hlt h rfl

/-! ## Sizes and slices -/

theorem utf8ByteSize_ofList (cs : List Char) :
    (String.ofList cs).utf8ByteSize = Text.size cs := by
  induction cs with
  | nil => simp
  | cons c cs ih =>
    rw [String.ofList_cons, String.utf8ByteSize_append, String.utf8ByteSize_singleton, ih,
      Text.size_cons]

theorem isValid_size (before after : List Char) :
    (⟨Text.size before⟩ : String.Pos.Raw).IsValid (String.ofList (before ++ after)) := by
  rw [String.Pos.Raw.isValid_ofList]
  exact ⟨before.length, by rw [List.take_left, utf8ByteSize_ofList]⟩

theorem extract_size (before text after : List Char) :
    (String.ofList (before ++ text ++ after)).toByteArray.extract (Text.size before)
        (Text.size before + Text.size text) = (String.ofList text).toByteArray := by
  have hbefore : Text.size before = (String.ofList before).toByteArray.size := by
    rw [String.size_toByteArray, utf8ByteSize_ofList]
  have htext : Text.size text = (String.ofList text).toByteArray.size := by
    rw [String.size_toByteArray, utf8ByteSize_ofList]
  rw [List.append_assoc, String.ofList_append, String.toByteArray_append, String.ofList_append,
    String.toByteArray_append, hbefore, htext]
  have hshift := @ByteArray.extract_append_size_add (String.ofList before).toByteArray
    ((String.ofList text).toByteArray ++ (String.ofList after).toByteArray) 0
    (String.ofList text).toByteArray.size
  rw [Nat.add_zero] at hshift
  rw [hshift, ByteArray.extract_append_eq_left rfl]

/-! ## One token behind the other -/

section Place

variable {start : Nat} {ts : List Token}

theorem start_le_of_mem_place {p : PlacedToken} (h : p ∈ place start ts) :
    start ≤ p.span.start := by
  induction ts generalizing start with
  | nil =>
    obtain rfl := List.mem_singleton.1 h
    exact Nat.le_refl _
  | cons t ts ih =>
    rcases List.mem_cons.1 h with rfl | h
    · exact Nat.le_refl _
    · exact Nat.le_trans (Nat.le_add_right ..) (ih h)

/-- Tokens that are not empty start where those before them stop, or behind that. -/
theorem place_pairwise (start : Nat) (hts : ∀ t ∈ ts, t.text ≠ []) :
    (place start ts).Pairwise fun p q =>
      p.span.start < p.span.stop ∧ p.span.stop ≤ q.span.start := by
  induction ts generalizing start with
  | nil => exact List.pairwise_singleton ..
  | cons t ts ih =>
    obtain ⟨ht, hts⟩ := List.forall_mem_cons.1 hts
    refine List.pairwise_cons.2 ⟨fun p hp => ⟨?_, start_le_of_mem_place hp⟩, ih _ hts⟩
    obtain ⟨c, cs, hcs⟩ := List.exists_cons_of_ne_nil ht
    have hchar := c.utf8Size_pos
    change start < start + Text.size t.text
    rw [hcs, Text.size_cons]
    omega

theorem mem_place (start : Nat) (front after : List Token) (t : Token) :
    ⟨t, ⟨start + Text.size (textOf front), start + Text.size (textOf front) + Text.size t.text⟩⟩ ∈
      place start (front ++ t :: after) := by
  induction front generalizing start with
  | nil => exact List.mem_cons_self ..
  | cons u front ih =>
    have hmem := ih (start + Text.size u.text)
    rw [Nat.add_assoc start, ← Text.size_append, ← textOf_cons] at hmem
    exact List.mem_cons_of_mem _ hmem

end Place

/-! ## The whole text -/

/-- Spans of which each starts where the one before it stops, from `start` to `stop`. -/
def Consecutive (start stop : Nat) : List Span → Prop
  | [] => start = stop
  | span :: more => span.start = start ∧ Consecutive span.stop stop more

/-- A token that is the piece of a text at its span. -/
structure Stands (source : String) (p : PlacedToken) : Prop where
  nonempty : p.token.text ≠ []
  notEnd : p.token.kind ≠ .eof
  start : (⟨p.span.start⟩ : String.Pos.Raw).IsValid source
  stop : (⟨p.span.stop⟩ : String.Pos.Raw).IsValid source
  slice : source.toByteArray.extract p.span.start p.span.stop =
    (String.ofList p.token.text).toByteArray

theorem place_partition (before : List Char) {ts : List Token}
    (hts : ∀ t ∈ ts, t.text ≠ [] ∧ t.kind ≠ .eof) :
    ∃ placed, place (Text.size before) ts = placed ++
        [⟨⟨.eof, []⟩, ⟨Text.size (before ++ textOf ts), Text.size (before ++ textOf ts)⟩⟩] ∧
      placed.map PlacedToken.token = ts ∧
      Consecutive (Text.size before) (Text.size (before ++ textOf ts))
        (placed.map PlacedToken.span) ∧
      ∀ p ∈ placed, Stands (String.ofList (before ++ textOf ts)) p := by
  induction ts generalizing before with
  | nil =>
    refine ⟨[], by simp [place], rfl, ?_, by simp⟩
    rw [textOf_nil, List.append_nil]
    rfl
  | cons t ts ih =>
    have hwhole : before ++ textOf (t :: ts) = before ++ t.text ++ textOf ts := by
      rw [textOf_cons, List.append_assoc]
    obtain ⟨placed, hplace, htokens, hspans, hstands⟩ :=
      ih (before ++ t.text) fun u hu => hts u (List.mem_cons_of_mem _ hu)
    have hfirst := hts t (List.mem_cons_self ..)
    rw [Text.size_append] at hplace hspans
    rw [hwhole]
    refine ⟨⟨t, ⟨Text.size before, Text.size before + Text.size t.text⟩⟩ :: placed, ?_, ?_,
      ⟨rfl, hspans⟩, fun p hp => ?_⟩
    · rw [place, hplace, List.cons_append]
    · rw [List.map_cons, htokens]
    · rcases List.mem_cons.1 hp with rfl | hp
      · refine ⟨hfirst.1, hfirst.2, ?_, ?_, extract_size before t.text (textOf ts)⟩
        · rw [List.append_assoc]
          exact isValid_size before _
        · have hstop := isValid_size (before ++ t.text) (textOf ts)
          rwa [Text.size_append] at hstop
      · exact hstands p hp

/-- A text is cut into tokens none of which is empty, which stand one behind the other from its
first byte to its last, and the mark of its end. -/
theorem tokens_partition (source : String) :
    ∃ placed, place 0 (tokens source.toList) =
        placed ++ [⟨⟨.eof, []⟩, ⟨source.utf8ByteSize, source.utf8ByteSize⟩⟩] ∧
      Consecutive 0 source.utf8ByteSize (placed.map PlacedToken.span) ∧
      (∀ p ∈ placed, Stands source p) ∧
      textOf (placed.map PlacedToken.token) = source.toList := by
  have hsize : Text.size source.toList = source.utf8ByteSize := by
    rw [← utf8ByteSize_ofList, String.ofList_toList]
  obtain ⟨placed, hplace, htokens, hspans, hstands⟩ :=
    place_partition [] fun t (ht : t ∈ tokens source.toList) => mem_tokens ht
  rw [List.nil_append, textOf_tokens] at hplace hspans hstands
  rw [hsize] at hplace hspans
  rw [String.ofList_toList] at hstands
  exact ⟨placed, hplace, hspans, hstands, by rw [htokens, textOf_tokens]⟩

end PackageManifest.Proofs.Lexing
