import PackageManifest.Proofs.Lexing.Lexed
import PackageManifest.Proofs.Lexing.Strings

/-!
# One cut

`cut?` is the kind of the first token of a text and what is left behind it, unless there is a fault
in it. A token that was cut off can be cut off in front of another text as well, if that text
`Fits` behind it.
-/

namespace PackageManifest.Proofs.Lexing

open Source

def afterReturn : List Char → List Char
  | '\n' :: rest => rest
  | cs => cs

def cut? (c : Char) (cs : List Char) : Option (TokenKind × List Char) :=
  if isSpace c then some (.whitespace, cs.dropWhile isSpace)
  else if c = '\n' then some (.newline, cs)
  else if c = '\r' then some (.newline, afterReturn cs)
  else if c = '/' ∧ cs.head? = some '/' then
    some (.lineComment, cs.dropWhile fun c => !isBreak c)
  else if c = '/' ∧ cs.head? = some '*' then
    (commentRest? 1 (cs.drop 1)).map fun rest => (.blockComment, rest)
  else
    match Fence.open? (c :: cs) with
    | some (fence, body) =>
      (restOf (scanString fence (c :: cs) body)).map fun rest => (.stringLit, rest)
    | none =>
      if c = '#' then some (.pound, cs)
      else if c = '\x60' then
        ((closeName? cs).map Subtype.val).map fun rest => (.ident, rest)
      else if c = '$' then some (.ident, cs.dropWhile isNamePart)
      else if c.isDigit then some (.numberLit, (numberTail cs).1)
      else if isNameStart c then
        some ((TokenKind.ofWord? (c :: cs.takeWhile isNamePart)).getD .ident,
          cs.dropWhile isNamePart)
      else
        match punctuation? c with
        | some kind => some (kind, cs)
        | none =>
          if c = '.' then
            if cs.head? = some '.' then some (.operator, (rangeTail cs).1) else some (.dot, cs)
          else if isOperatorChar c then
            some (if c = '=' ∧ (operatorTail cs).1 = cs then .equals else .operator,
              (operatorTail cs).1)
          else none

def sound? {input : List Char} (l : Lexeme input) : Option (TokenKind × List Char) :=
  match l.fault with
  | none => some (l.kind, l.rest)
  | some _ => none

theorem afterReturn_cons (c : Char) (cs : List Char) :
    afterReturn (c :: cs) = if c = '\n' then cs else c :: cs := by
  unfold afterReturn
  split <;> simp_all

theorem sound?_lexeme (c : Char) (cs : List Char) : sound? (lexeme c cs) = cut? c cs := by
  rw [lexeme.eq_def, cut?]
  by_cases hspace : isSpace c = true
  · rw [if_pos hspace, if_pos hspace]
    rfl
  rw [if_neg hspace, if_neg hspace]
  by_cases hfeed : c = '\n'
  · rw [if_pos hfeed, if_pos hfeed]
    rfl
  rw [if_neg hfeed, if_neg hfeed]
  by_cases hreturn : c = '\r'
  · rw [if_pos hreturn, if_pos hreturn]
    split
    · rfl
    · rename_i hne
      have hkeep : afterReturn cs = cs := by
        cases cs with
        | nil => rfl
        | cons d rest => rw [afterReturn_cons, if_neg fun hd => hne rest (by rw [hd])]
      rw [hkeep]
      rfl
  rw [if_neg hreturn, if_neg hreturn]
  by_cases hline : c = '/' ∧ cs.head? = some '/'
  · rw [if_pos hline, if_pos hline]
    rfl
  rw [if_neg hline, if_neg hline]
  by_cases hblock : c = '/' ∧ cs.head? = some '*'
  · rw [if_pos hblock, if_pos hblock, commentRest?]
    cases closeComment? 1 (cs.drop 1) <;> rfl
  rw [if_neg hblock, if_neg hblock]
  split
  · rename_i fence body hopen
    simp only [hopen]
    cases scanString fence (c :: cs) body <;> rfl
  rename_i hopen
  simp only [hopen]
  by_cases hpound : c = '#'
  · rw [if_pos hpound, if_pos hpound]
    rfl
  rw [if_neg hpound, if_neg hpound]
  by_cases htick : c = '\x60'
  · rw [if_pos htick, if_pos htick]
    cases closeName? cs <;> rfl
  rw [if_neg htick, if_neg htick]
  by_cases hdollar : c = '$'
  · rw [if_pos hdollar, if_pos hdollar]
    rfl
  rw [if_neg hdollar, if_neg hdollar]
  by_cases hdigit : c.isDigit = true
  · rw [if_pos hdigit, if_pos hdigit]
    rfl
  rw [if_neg hdigit, if_neg hdigit]
  by_cases hname : isNameStart c = true
  · rw [if_pos hname, if_pos hname]
    rfl
  rw [if_neg hname, if_neg hname]
  cases punctuation? c with
  | some kind => rfl
  | none =>
    simp only
    by_cases hpoint : c = '.'
    · rw [if_pos hpoint, if_pos hpoint]
      split <;> rfl
    rw [if_neg hpoint, if_neg hpoint]
    split <;> rfl

/-- A token is cut off if its kind is that of the cut and its text is what the cut takes. -/
theorem cuts_iff {t : Token} {rest : List Char} :
    Cuts t rest ↔ ∃ c cs, t.text = c :: cs ∧ cut? c (cs ++ rest) = some (t.kind, rest) := by
  refine exists_congr fun c => exists_congr fun cs => and_congr_right fun htext => ?_
  rw [← sound?_lexeme, sound?]
  have hwhole := (lexeme c (cs ++ rest)).whole
  constructor
  · rintro ⟨htoken, hfault⟩
    have htext' : (lexeme c (cs ++ rest)).text = c :: cs := by
      rw [← htext, ← htoken]
      rfl
    have hkind : (lexeme c (cs ++ rest)).kind = t.kind := by
      rw [← htoken]
      rfl
    rw [hfault, rest_eq_of_text_eq htext', hkind]
  · intro h
    split at h
    · rename_i hfault
      simp only [Option.some.injEq, Prod.mk.injEq] at h
      rw [h.2] at hwhole
      have htext' : (lexeme c (cs ++ rest)).text = c :: cs := List.append_cancel_right hwhole
      refine ⟨?_, hfault⟩
      rw [Lexeme.token, h.1, htext', ← htext]
    · cases h

/-- What may stand behind a token without being drawn into it. -/
def Fits (t : Token) (rest : List Char) : Prop :=
  if t.kind.isNameLike then t.text.head? = some '\x60' ∨ Stops isNamePart rest
  else
    match t.kind with
    | .whitespace => Stops isSpace rest
    | .newline => t.text = ['\r'] → Stops (· == '\n') rest
    | .lineComment => Stops (fun c => !isBreak c) rest
    | .stringLit => t.text = ['"', '"'] → Stops (· == '"') rest
    | .pound => Fence.open? rest = none
    | .numberLit => Stops isNamePart rest ∧ startsFraction rest = false
    | .dot => Stops (· == '.') rest
    | .operator | .equals =>
      if t.text.head? = some '.' then t.text.getLast? = some '<' ∨ Stops goesOnRange rest
      else endsOperator rest ∧ (startsComment rest = true → t.text.getLast? ≠ some '/')
    | _ => True

/-- A cut that leaves `r`, made again in front of any text that fits. -/
def Recuts (c : Char) (cs r : List Char) (kind : TokenKind) : Prop :=
  Fits ⟨kind, c :: cs⟩ r ∧
    ∀ r', Fits ⟨kind, c :: cs⟩ r' → cut? c (cs ++ r') = some (kind, r')

theorem recuts_space {c : Char} {cs r : List Char} (hc : isSpace c = true)
    (h : (cs ++ r).dropWhile isSpace = r) : Recuts c cs r .whitespace := by
  obtain ⟨hcs, hr⟩ := dropWhile_append_eq_iff.1 h
  refine ⟨hr, fun r' hr' => ?_⟩
  rw [cut?, if_pos hc, dropWhile_append_eq_iff.2 ⟨hcs, hr'⟩]

theorem ne_append_self {c : Char} {cs r : List Char} : c :: (cs ++ r) ≠ r := by
  intro h
  have := congrArg List.length h
  simp only [List.length_cons, List.length_append] at this
  omega

theorem recuts_return {cs r : List Char} (h : afterReturn (cs ++ r) = r) :
    Recuts '\r' cs r .newline := by
  have self {r' : List Char} : afterReturn r' = r' ↔ Stops (· == '\n') r' := by
    cases r' with
    | nil => simp [afterReturn, stops_nil]
    | cons c cs =>
      rw [afterReturn_cons, stops_cons]
      split <;> simp_all
  cases cs with
  | nil =>
    refine ⟨fun _ => self.1 h, fun r' hr' => ?_⟩
    change some (TokenKind.newline, afterReturn r') = _
    rw [self.2 (hr' rfl)]
  | cons d cs =>
    rw [List.cons_append, afterReturn_cons] at h
    split at h
    · rename_i hd
      have hcs : cs ++ r = [] ++ r := h
      rw [List.append_cancel_right_eq] at hcs
      subst hd hcs
      exact ⟨nofun, fun r' _ => rfl⟩
    · exact absurd h ne_append_self

theorem recuts_lineComment {cs r : List Char} (hslash : (cs ++ r).head? = some '/')
    (h : (cs ++ r).dropWhile (fun c => !isBreak c) = r) : Recuts '/' cs r .lineComment := by
  obtain ⟨hcs, hr⟩ := dropWhile_append_eq_iff.1 h
  refine ⟨hr, fun r' hr' => ?_⟩
  cases cs with
  | nil =>
    rw [List.nil_append] at hslash
    have := hr '/' hslash
    cases this
  | cons d cs =>
    have hd : d = '/' := by simpa using hslash
    subst hd
    change some (TokenKind.lineComment, ('/' :: cs ++ r').dropWhile fun c => !isBreak c) = _
    rw [dropWhile_append_eq_iff.2 ⟨hcs, hr'⟩]

theorem recuts_blockComment {cs r : List Char} (hstar : (cs ++ r).head? = some '*')
    (h : commentRest? 1 ((cs ++ r).drop 1) = some r) : Recuts '/' cs r .blockComment := by
  cases cs with
  | nil =>
    have := length_commentRest? h
    simp only [List.nil_append, List.length_drop] at this
    omega
  | cons d cs =>
    have hd : d = '*' := by simpa using hstar
    subst hd
    refine ⟨trivial, fun r' _ => ?_⟩
    change (commentRest? 1 (cs ++ r')).map _ = _
    rw [commentRest?_append h r']
    rfl

theorem open?_eq_none {c : Char} (hpound : c ≠ '#') (hquote : c ≠ '"') (cs : List Char) :
    Fence.open? (c :: cs) = none := by
  have hdrop : (c :: cs).dropWhile (· == '#') = c :: cs := by simp [hpound]
  simp [Fence.open?, hdrop, hquote]

theorem open?_pounds (n : Nat) (b : List Char) :
    Fence.open? (List.replicate n '#' ++ '"' :: b) =
      match b with
      | '"' :: '"' :: body => some (⟨n, true⟩, body)
      | _ => some (⟨n, false⟩, b) := by
  have hdrop : (List.replicate n '#' ++ '"' :: b).dropWhile (· == '#') = '"' :: b := by
    rw [dropWhile_append_eq_iff]
    refine ⟨fun c hc => ?_, stops_cons.2 rfl⟩
    simp [(List.mem_replicate.1 hc).2]
  have htake : (List.replicate n '#' ++ '"' :: b).takeWhile (· == '#') = List.replicate n '#' := by
    have hsplit := List.takeWhile_append_dropWhile (p := (· == '#'))
      (l := List.replicate n '#' ++ '"' :: b)
    rw [hdrop] at hsplit
    exact List.append_cancel_right hsplit
  simp only [Fence.open?, hdrop, htake, List.length_replicate]
  split
  · rename_i heq
    obtain ⟨_, rfl⟩ := List.cons.inj heq
    rfl
  · rename_i hne heq
    obtain ⟨_, rfl⟩ := List.cons.inj heq
    split
    · rename_i body
      exact (hne body rfl).elim
    · rfl
  · rename_i hne
    exact (hne b rfl).elim

/-- What opens a literal opens it in front of any other text, too, unless the literal is empty and
a third quote follows. -/
theorem open?_of_closing {fence : Fence} {w r r' : List Char}
    (hopen : Fence.open? (List.replicate fence.pounds '#' ++ fence.quotes ++ (w ++ r)) =
      some (fence, w ++ r))
    (hlen : fence.closing.length ≤ w.length)
    (hr' : List.replicate fence.pounds '#' ++ fence.quotes ++ w = ['"', '"'] →
      Stops (· == '"') r') :
    Fence.open? (List.replicate fence.pounds '#' ++ fence.quotes ++ (w ++ r')) =
      some (fence, w ++ r') := by
  obtain ⟨pounds, multiline⟩ := fence
  cases multiline with
  | true =>
    simp only [Fence.quotes, if_true, List.append_assoc, List.cons_append, List.nil_append]
    exact open?_pounds pounds _
  | false =>
    simp only [Fence.quotes, Bool.false_eq_true, if_false, List.append_assoc, List.cons_append,
      List.nil_append, Fence.closing, List.length_cons, List.length_replicate] at hopen hlen hr' ⊢
    rw [open?_pounds] at hopen ⊢
    rcases w with _ | ⟨c, _ | ⟨d, w⟩⟩
    · simp at hlen
    · -- One character is room for the quote only, so the literal has no pound signs.
      have hpounds : pounds = 0 := by
        simp only [List.length_cons, List.length_nil] at hlen
        omega
      subst hpounds
      by_cases hc : c = '"'
      · subst hc
        have hstops := hr' rfl
        split
        · rename_i heq
          obtain ⟨_, rfl⟩ := List.cons.inj heq
          rw [stops_cons] at hstops
          cases hstops
        · rfl
      · split
        · rename_i heq
          exact absurd (List.cons.inj heq).1 hc
        · rfl
    · split
      · rename_i heq
        obtain ⟨hc, heq⟩ := List.cons.inj heq
        obtain ⟨hd, _⟩ := List.cons.inj heq
        subst hc hd
        cases hopen
      · rfl

theorem cut?_of_open? {c : Char} {cs body : List Char} {fence : Fence}
    (h : Fence.open? (c :: cs) = some (fence, body)) :
    cut? c cs = (restOf (scanString fence (c :: cs) body)).map fun rest => (.stringLit, rest) := by
  have hc : c = '#' ∨ c = '"' := by
    by_cases hpound : c = '#'
    · exact .inl hpound
    · by_cases hquote : c = '"'
      · exact .inr hquote
      · rw [open?_eq_none hpound hquote] at h
        cases h
  unfold cut?
  rcases hc with rfl | rfl
  · rw [if_neg (by decide), if_neg (by decide), if_neg (by decide), if_neg (by simp),
      if_neg (by simp), h]
  · rw [if_neg (by decide), if_neg (by decide), if_neg (by decide), if_neg (by simp),
      if_neg (by simp), h]

theorem recuts_string {c : Char} {cs r body : List Char} {fence : Fence}
    (hopen : Fence.open? (c :: (cs ++ r)) = some (fence, body))
    (h : restOf (scanString fence (c :: (cs ++ r)) body) = some r) :
    Recuts c cs r .stringLit := by
  obtain ⟨w, rfl⟩ := restOf_eq_some h
  have hwhole := Fence.open?_eq_some hopen
  have htext : c :: cs = List.replicate fence.pounds '#' ++ fence.quotes ++ w := by
    rw [← List.append_assoc, ← List.cons_append] at hwhole
    exact List.append_cancel_right hwhole
  obtain ⟨hlen, hends⟩ := literalEnds w h
  refine ⟨fun hempty => ?_, fun r' hr' => ?_⟩
  · obtain ⟨rfl, rfl⟩ : c = '"' ∧ cs = ['"'] := by simpa using hempty
    cases r with
    | nil => exact stops_nil _
    | cons d r =>
      rw [stops_cons, beq_eq_false_iff_ne]
      rintro rfl
      -- Three quotes open a literal that may span lines.
      have hbody : some ((⟨0, true⟩ : Fence), r) = some (fence, w ++ '"' :: r) := hopen
      simp only [Option.some.injEq, Prod.mk.injEq] at hbody
      have := congrArg List.length hbody.2
      simp only [List.length_append, List.length_cons] at this
      omega
  · rw [hwhole] at hopen
    have hopen' := @open?_of_closing _ _ _ r' hopen hlen (by rw [← htext]; exact hr')
    rw [← List.append_assoc, ← htext, List.cons_append] at hopen'
    rw [cut?_of_open? hopen', hends]
    rfl

theorem open?_pound (cs : List Char) :
    (Fence.open? ('#' :: cs)).isSome = (Fence.open? cs).isSome := by
  have hdrop : ('#' :: cs).dropWhile (· == '#') = cs.dropWhile (· == '#') := rfl
  simp only [Fence.open?, hdrop]
  split <;> rfl

theorem recuts_pound {cs r : List Char} (hopen : Fence.open? ('#' :: (cs ++ r)) = none)
    (h : cs ++ r = r) : Recuts '#' cs r .pound := by
  have hcs : cs ++ r = [] ++ r := h
  rw [List.append_cancel_right_eq] at hcs
  subst hcs
  have none_iff (r' : List Char) : Fence.open? ('#' :: r') = none ↔ Fence.open? r' = none := by
    rw [← Option.not_isSome_iff_eq_none, open?_pound, Option.not_isSome_iff_eq_none]
  refine ⟨(none_iff r).1 hopen, fun r' hr' => ?_⟩
  have hopen' := (none_iff r').2 hr'
  rw [List.nil_append, cut?, if_neg (by decide), if_neg (by decide), if_neg (by decide),
    if_neg (by simp), if_neg (by simp), hopen']
  rfl

theorem recuts_tick {cs r : List Char} (h : (closeName? (cs ++ r)).map Subtype.val = some r) :
    Recuts '\x60' cs r .ident := by
  refine ⟨.inl rfl, fun r' _ => ?_⟩
  rw [cut?, if_neg (by decide), if_neg (by decide), if_neg (by decide), if_neg (by simp),
    if_neg (by simp), open?_eq_none (by decide) (by decide)]
  change ((closeName? (cs ++ r')).map Subtype.val).map _ = _
  rw [closeName?_append h r']
  rfl

/-- A first character that decides by itself what is cut off, together with what it decides. -/
structure Ordinary (c : Char) : Prop where
  space : isSpace c = false
  feed : c ≠ '\n'
  carriage : c ≠ '\r'
  pound : c ≠ '#'
  quote : c ≠ '"'
  tick : c ≠ '\x60'

theorem startsComment_cons {c : Char} {cs : List Char} :
    startsComment (c :: cs) = true ↔ c = '/' ∧ (cs.head? = some '/' ∨ cs.head? = some '*') := by
  cases cs with
  | nil => simp [startsComment]
  | cons d cs =>
    unfold startsComment
    split <;> simp_all

theorem Ordinary.cut? {c : Char} (hc : Ordinary c) {cs : List Char}
    (hcomment : startsComment (c :: cs) = false) :
    Lexing.cut? c cs =
      if c = '$' then some (.ident, cs.dropWhile isNamePart)
      else if c.isDigit then some (.numberLit, (numberTail cs).1)
      else if isNameStart c then
        some ((TokenKind.ofWord? (c :: cs.takeWhile isNamePart)).getD .ident,
          cs.dropWhile isNamePart)
      else
        match punctuation? c with
        | some kind => some (kind, cs)
        | none =>
          if c = '.' then
            if cs.head? = some '.' then some (.operator, (rangeTail cs).1) else some (.dot, cs)
          else if isOperatorChar c then
            some (if c = '=' ∧ (operatorTail cs).1 = cs then .equals else .operator,
              (operatorTail cs).1)
          else none := by
  have hslashes : ¬ (c = '/' ∧ (cs.head? = some '/' ∨ cs.head? = some '*')) := by
    rw [← startsComment_cons, hcomment]
    simp
  rw [Lexing.cut?, if_neg (by simp [hc.space]), if_neg hc.feed, if_neg hc.carriage,
    if_neg (fun h => hslashes ⟨h.1, .inl h.2⟩), if_neg (fun h => hslashes ⟨h.1, .inr h.2⟩),
    open?_eq_none hc.pound hc.quote]
  simp only
  rw [if_neg hc.pound, if_neg hc.tick]

section Ordinary

variable {c : Char} {cs r : List Char}

theorem eq_nil_of_append_eq (h : cs ++ r = r) : cs = [] := by
  have hcs : cs ++ r = [] ++ r := h
  rwa [List.append_cancel_right_eq] at hcs

theorem recuts_dollar (h : (cs ++ r).dropWhile isNamePart = r) : Recuts '$' cs r .ident := by
  obtain ⟨hcs, hr⟩ := dropWhile_append_eq_iff.1 h
  refine ⟨.inr hr, fun r' hr' => ?_⟩
  have hstops : Stops isNamePart r' := hr'.resolve_left (by simp)
  change some (TokenKind.ident, (cs ++ r').dropWhile isNamePart) = _
  rw [dropWhile_append_eq_iff.2 ⟨hcs, hstops⟩]

theorem recuts_number (hc : Ordinary c) (hdigit : c.isDigit = true)
    (h : (numberTail (cs ++ r)).1 = r) : Recuts c cs r .numberLit := by
  obtain ⟨hfits, hagain⟩ := numberTail_append h
  refine ⟨hfits, fun r' hr' => ?_⟩
  have hslash : c ≠ '/' := by
    rintro rfl
    cases hdigit
  have hdollar : c ≠ '$' := by
    rintro rfl
    cases hdigit
  rw [hc.cut? (startsComment_of_ne hslash _), if_neg hdollar, if_pos hdigit,
    hagain r' hr'.1 hr'.2]

theorem isNameLike_ofWord? (word : List Char) :
    ((TokenKind.ofWord? word).getD .ident).isNameLike = true := by
  unfold TokenKind.ofWord?
  repeat' split
  all_goals rfl

theorem takeWhile_of_dropWhile {p : Char → Bool} (h : (cs ++ r).dropWhile p = r) :
    (cs ++ r).takeWhile p = cs := by
  have hsplit := List.takeWhile_append_dropWhile (p := p) (l := cs ++ r)
  rw [h] at hsplit
  exact List.append_cancel_right hsplit

theorem recuts_name (hc : Ordinary c) (hdollar : c ≠ '$') (hdigit : c.isDigit = false)
    (hname : isNameStart c = true) (h : (cs ++ r).dropWhile isNamePart = r) :
    Recuts c cs r ((TokenKind.ofWord? (c :: cs)).getD .ident) := by
  obtain ⟨hcs, hr⟩ := dropWhile_append_eq_iff.1 h
  have hlike := isNameLike_ofWord? (c :: cs)
  refine ⟨?_, fun r' hr' => ?_⟩
  · rw [Fits, if_pos hlike]
    exact .inr hr
  · rw [Fits, if_pos hlike] at hr'
    have hstops : Stops isNamePart r' := hr'.resolve_left (by simpa using hc.tick)
    have hdrop : (cs ++ r').dropWhile isNamePart = r' := dropWhile_append_eq_iff.2 ⟨hcs, hstops⟩
    have hslash : c ≠ '/' := by
      rintro rfl
      cases hname
    rw [hc.cut? (startsComment_of_ne hslash _), if_neg hdollar, if_neg (by simp [hdigit]),
      if_pos hname, hdrop, takeWhile_of_dropWhile hdrop]

theorem recuts_punctuation (hc : Ordinary c) (hdollar : c ≠ '$') (hdigit : c.isDigit = false)
    (hname : isNameStart c = false) {kind : TokenKind} (hkind : punctuation? c = some kind)
    (h : cs ++ r = r) : Recuts c cs r kind := by
  have hslash : c ≠ '/' := by
    rintro rfl
    cases hkind
  have hfits (rest : List Char) : Fits ⟨kind, c :: cs⟩ rest := by
    unfold punctuation? at hkind
    split at hkind <;> cases hkind <;> exact trivial
  refine ⟨hfits r, fun r' _ => ?_⟩
  rw [eq_nil_of_append_eq h, List.nil_append, hc.cut? (startsComment_of_ne hslash _),
    if_neg hdollar, if_neg (by simp [hdigit]), if_neg (by simp [hname]), hkind]

theorem recuts_range (hpoint : (cs ++ r).head? = some '.') (h : (rangeTail (cs ++ r)).1 = r) :
    Recuts '.' cs r .operator := by
  obtain ⟨hfits, hagain⟩ := rangeTail_append h
  cases cs with
  | nil =>
    have hstops := hfits.resolve_left (by simp)
    cases hstops '.' hpoint
  | cons d cs =>
    have hd : d = '.' := by simpa using hpoint
    subst hd
    have fits_iff (rest : List Char) : Fits ⟨.operator, '.' :: '.' :: cs⟩ rest ↔
        ('.' :: cs).getLast? = some '<' ∨ Stops goesOnRange rest := by
      simp [Fits, TokenKind.isNameLike, TokenKind.isKeyword]
    refine ⟨(fits_iff r).2 hfits, fun r' hr' => ?_⟩
    change some (TokenKind.operator, (rangeTail ('.' :: cs ++ r')).1) = _
    rw [hagain r' ((fits_iff r').1 hr')]

theorem recuts_point (hpoint : (cs ++ r).head? ≠ some '.') (h : cs ++ r = r) :
    Recuts '.' cs r .dot := by
  have hcs := eq_nil_of_append_eq h
  subst hcs
  have stops_iff (r' : List Char) : Stops (· == '.') r' ↔ r'.head? ≠ some '.' := by
    cases r' with
    | nil => simp [stops_nil]
    | cons d r' => simp [stops_cons]
  refine ⟨(stops_iff r).2 hpoint, fun r' hr' => ?_⟩
  change (if r'.head? = some '.' then _ else some (TokenKind.dot, r')) = _
  rw [if_neg ((stops_iff r').1 hr')]

theorem recuts_operator (hc : Ordinary c) (hdollar : c ≠ '$') (hdigit : c.isDigit = false)
    (hname : isNameStart c = false) (hkind : punctuation? c = none) (hpoint : c ≠ '.')
    (hop : isOperatorChar c = true) (hcomment : startsComment (c :: (cs ++ r)) = false)
    (h : (operatorTail (cs ++ r)).1 = r) :
    Recuts c cs r (if c = '=' ∧ r = cs ++ r then .equals else .operator) := by
  have kind_eq (r' : List Char) :
      (if c = '=' ∧ r' = cs ++ r' then TokenKind.equals else .operator) =
        if c = '=' ∧ cs = [] then .equals else .operator := by
    simp
  rw [kind_eq]
  obtain ⟨hfits, hagain⟩ := operatorTail_append h hcomment
  have fits_iff (rest : List Char) :
      Fits ⟨if c = '=' ∧ cs = [] then .equals else .operator, c :: cs⟩ rest ↔
        endsOperator rest ∧ (startsComment rest = true → (c :: cs).getLast? ≠ some '/') := by
    split <;> simp [Fits, hpoint, TokenKind.isNameLike, TokenKind.isKeyword]
  refine ⟨(fits_iff r).2 hfits, fun r' hr' => ?_⟩
  rw [fits_iff] at hr'
  obtain ⟨hrest, hcomment'⟩ := hagain r' hr'.1 hr'.2
  rw [hc.cut? hcomment', if_neg hdollar, if_neg (by simp [hdigit]), if_neg (by simp [hname]), hkind]
  simp only
  rw [if_neg hpoint, if_pos hop, hrest, kind_eq]

end Ordinary

theorem recuts_ordinary {c : Char} {cs r : List Char} {kind : TokenKind} (hc : Ordinary c)
    (hcomment : startsComment (c :: (cs ++ r)) = false)
    (h : cut? c (cs ++ r) = some (kind, r)) : Recuts c cs r kind := by
  rw [hc.cut? hcomment] at h
  by_cases hdollar : c = '$'
  · rw [if_pos hdollar, Option.some.injEq, Prod.mk.injEq] at h
    rw [hdollar, ← h.1]
    exact recuts_dollar h.2
  rw [if_neg hdollar] at h
  by_cases hdigit : c.isDigit = true
  · rw [if_pos hdigit, Option.some.injEq, Prod.mk.injEq] at h
    rw [← h.1]
    exact recuts_number hc hdigit h.2
  rw [if_neg hdigit] at h
  rw [Bool.not_eq_true] at hdigit
  by_cases hname : isNameStart c = true
  · rw [if_pos hname, Option.some.injEq, Prod.mk.injEq] at h
    rw [← h.1, takeWhile_of_dropWhile h.2]
    exact recuts_name hc hdollar hdigit hname h.2
  rw [if_neg hname] at h
  rw [Bool.not_eq_true] at hname
  cases hkind : punctuation? c with
  | some single =>
    simp only [hkind, Option.some.injEq, Prod.mk.injEq] at h
    rw [← h.1]
    exact recuts_punctuation hc hdollar hdigit hname hkind h.2
  | none =>
    simp only [hkind] at h
    by_cases hpoint : c = '.'
    · rw [if_pos hpoint] at h
      subst hpoint
      split at h
      · rename_i hhead
        rw [Option.some.injEq, Prod.mk.injEq] at h
        rw [← h.1]
        exact recuts_range hhead h.2
      · rename_i hhead
        rw [Option.some.injEq, Prod.mk.injEq] at h
        rw [← h.1]
        exact recuts_point hhead h.2
    · rw [if_neg hpoint] at h
      split at h
      · rename_i hop
        rw [Option.some.injEq, Prod.mk.injEq] at h
        rw [← h.1, h.2]
        exact recuts_operator hc hdollar hdigit hname hkind hpoint hop hcomment h.2
      · cases h

/-- Whether a token can be cut off depends on what is behind it through `Fits` alone. -/
theorem recuts_of_cut? {c : Char} {cs r : List Char} {kind : TokenKind}
    (h : cut? c (cs ++ r) = some (kind, r)) : Recuts c cs r kind := by
  by_cases hspace : isSpace c = true
  · rw [cut?, if_pos hspace, Option.some.injEq, Prod.mk.injEq] at h
    rw [← h.1]
    exact recuts_space hspace h.2
  by_cases hfeed : c = '\n'
  · subst hfeed
    have h' : some (TokenKind.newline, cs ++ r) = some (kind, r) := h
    rw [Option.some.injEq, Prod.mk.injEq] at h'
    rw [← h'.1, eq_nil_of_append_eq h'.2]
    exact ⟨nofun, fun r' _ => rfl⟩
  by_cases hreturn : c = '\r'
  · subst hreturn
    have h' : some (TokenKind.newline, afterReturn (cs ++ r)) = some (kind, r) := h
    rw [Option.some.injEq, Prod.mk.injEq] at h'
    rw [← h'.1]
    exact recuts_return h'.2
  have step := h
  rw [cut?, if_neg hspace, if_neg hfeed, if_neg hreturn] at step
  by_cases hline : c = '/' ∧ (cs ++ r).head? = some '/'
  · rw [if_pos hline, Option.some.injEq, Prod.mk.injEq] at step
    rw [hline.1, ← step.1]
    exact recuts_lineComment hline.2 step.2
  rw [if_neg hline] at step
  by_cases hblock : c = '/' ∧ (cs ++ r).head? = some '*'
  · rw [if_pos hblock, Option.map_eq_some_iff] at step
    obtain ⟨rest, hrest, heq⟩ := step
    cases heq
    rw [hblock.1]
    exact recuts_blockComment hblock.2 hrest
  rw [if_neg hblock] at step
  have hcomment : startsComment (c :: (cs ++ r)) = false := by
    rw [Bool.eq_false_iff, ne_eq, startsComment_cons]
    rintro ⟨hslash, hhead | hhead⟩
    · exact hline ⟨hslash, hhead⟩
    · exact hblock ⟨hslash, hhead⟩
  cases hopen : Fence.open? (c :: (cs ++ r)) with
  | some opened =>
    simp only [hopen, Option.map_eq_some_iff] at step
    obtain ⟨rest, hrest, heq⟩ := step
    cases heq
    exact recuts_string hopen hrest
  | none =>
    simp only [hopen] at step
    by_cases hpound : c = '#'
    · rw [if_pos hpound, Option.some.injEq, Prod.mk.injEq] at step
      subst hpound
      rw [← step.1]
      exact recuts_pound hopen step.2
    rw [if_neg hpound] at step
    by_cases htick : c = '\x60'
    · rw [if_pos htick, Option.map_eq_some_iff] at step
      obtain ⟨rest, hrest, heq⟩ := step
      cases heq
      rw [htick]
      exact recuts_tick hrest
    have hquote : c ≠ '"' := by
      rintro rfl
      have := open?_pounds 0 (cs ++ r)
      rw [List.replicate_zero, List.nil_append, hopen] at this
      split at this <;> cases this
    rw [Bool.not_eq_true] at hspace
    exact recuts_ordinary ⟨hspace, hfeed, hreturn, hpound, hquote, htick⟩ hcomment h

theorem Cuts.fits {t : Token} {rest : List Char} (h : Cuts t rest) : Fits t rest := by
  obtain ⟨c, cs, htext, hcut⟩ := cuts_iff.1 h
  have := (recuts_of_cut? hcut).1
  rwa [← htext] at this

theorem Cuts.of_fits {t : Token} {rest rest' : List Char} (h : Cuts t rest)
    (hrest' : Fits t rest') : Cuts t rest' := by
  obtain ⟨c, cs, htext, hcut⟩ := cuts_iff.1 h
  refine cuts_iff.2 ⟨c, cs, htext, (recuts_of_cut? hcut).2 rest' ?_⟩
  rwa [← htext]

end PackageManifest.Proofs.Lexing
