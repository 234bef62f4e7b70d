import PackageManifest.Source.Lexeme

/-!
# Scans do not look behind what they pass

If a scan of `w ++ r` stops before `r`, then a scan of `w ++ r'` stops before `r'`. For comments,
names in backticks and string literals this holds without a condition on `r'`. A run, a number, an
operator or a range must not go on in `r'`.
-/

namespace PackageManifest.Proofs.Lexing

open Source

def Stops (p : Char → Bool) (cs : List Char) : Prop := ∀ c ∈ cs.head?, p c = false

theorem stops_nil (p : Char → Bool) : Stops p [] := by
  intro c hc
  cases hc

theorem stops_cons {p : Char → Bool} {c : Char} {cs : List Char} :
    Stops p (c :: cs) ↔ p c = false := by
  simp [Stops]

theorem stops_of_dropWhile_eq {p : Char → Bool} {cs : List Char} (h : cs.dropWhile p = cs) :
    Stops p cs := by
  cases cs with
  | nil => exact stops_nil p
  | cons c cs =>
    rw [stops_cons, Bool.eq_false_iff]
    intro hc
    rw [List.dropWhile_cons_of_pos hc] at h
    have := (List.dropWhile_suffix p (l := cs)).length_le
    rw [h, List.length_cons] at this
    omega

theorem dropWhile_of_stops {p : Char → Bool} {cs : List Char} (h : Stops p cs) :
    cs.dropWhile p = cs := by
  cases cs with
  | nil => rfl
  | cons c cs =>
    rw [stops_cons] at h
    simp [h]

/-- A run ends where a character that does not belong to it comes. -/
theorem dropWhile_append_eq_iff {p : Char → Bool} {w r : List Char} :
    (w ++ r).dropWhile p = r ↔ (∀ c ∈ w, p c = true) ∧ Stops p r := by
  induction w with
  | nil =>
    rw [List.nil_append]
    exact ⟨fun h => ⟨nofun, stops_of_dropWhile_eq h⟩, fun h => dropWhile_of_stops h.2⟩
  | cons c w ih =>
    by_cases hc : p c = true
    · rw [List.cons_append, List.dropWhile_cons_of_pos hc, ih]
      simp [hc]
    · rw [List.cons_append, List.dropWhile_cons_of_neg hc]
      constructor
      · intro h
        have := congrArg List.length h
        simp only [List.length_cons, List.length_append] at this
        omega
      · intro h
        exact absurd (h.1 c (by simp)) hc

/-- Whether a short text is at the start of another one does not depend on what is behind that. -/
theorem after?_append {start w : List Char} (h : start.length ≤ w.length) (r : List Char) :
    Text.after? start (w ++ r) = (Text.after? start w).map (· ++ r) := by
  induction start generalizing w with
  | nil => rfl
  | cons s start ih =>
    cases w with
    | nil => simp at h
    | cons c w =>
      by_cases hs : s = c
      · simp only [List.cons_append, Text.after?, if_pos hs]
        exact ih (by simpa using h)
      · simp [Text.after?, hs]

/-! ## Comments -/

def commentRest? (depth : Nat) (cs : List Char) : Option (List Char) :=
  (closeComment? depth cs).map Subtype.val

theorem commentRest?_cons (depth : Nat) (a b : Char) (cs : List Char) :
    commentRest? depth (a :: b :: cs) =
      if a = '/' ∧ b = '*' then commentRest? (depth + 1) cs
      else if a = '*' ∧ b = '/' then
        if depth ≤ 1 then some cs else commentRest? (depth - 1) cs
      else commentRest? depth (b :: cs) := by
  have lift {cs more : List Char} (h : more <:+ cs) (t : Option (Tail more)) :
      (t.map (Tail.lift h)).map Subtype.val = t.map Subtype.val := by
    cases t <;> rfl
  simp only [commentRest?]
  rw [closeComment?]
  split
  · exact lift _ _
  · split
    · split
      · rfl
      · exact lift _ _
    · exact lift _ _

theorem length_commentRest? {depth : Nat} {cs r : List Char} (h : commentRest? depth cs = some r) :
    r.length + 2 ≤ cs.length := by
  induction hn : cs.length using Nat.strongRecOn generalizing depth cs with
  | ind n ih =>
    match cs with
    | [] => cases h
    | [_] => cases h
    | a :: b :: cs =>
      simp only [List.length_cons] at hn
      rw [commentRest?_cons] at h
      split at h
      · have := ih cs.length (by omega) h rfl
        omega
      · split at h
        · split at h
          · cases h
            omega
          · have := ih cs.length (by omega) h rfl
            omega
        · have := ih (b :: cs).length (by simp; omega) h rfl
          simp only [List.length_cons] at this
          omega

theorem commentRest?_append {depth : Nat} {w r : List Char}
    (h : commentRest? depth (w ++ r) = some r) (r' : List Char) :
    commentRest? depth (w ++ r') = some r' := by
  induction hn : w.length using Nat.strongRecOn generalizing depth w with
  | ind n ih =>
    match w with
    | [] =>
      have := length_commentRest? h
      simp only [List.nil_append] at this
      omega
    | [a] =>
      have := length_commentRest? h
      simp only [List.cons_append, List.nil_append, List.length_cons] at this
      omega
    | a :: b :: w =>
      simp only [List.length_cons] at hn
      simp only [List.cons_append] at h ⊢
      rw [commentRest?_cons] at h ⊢
      split at h
      · rename_i hopen
        rw [if_pos hopen]
        exact ih w.length (by omega) h rfl
      · rename_i hopen
        rw [if_neg hopen]
        split at h
        · rename_i hclose
          rw [if_pos hclose]
          split at h
          · rename_i hdepth
            rw [if_pos hdepth]
            have hw : w ++ r = [] ++ r := Option.some.inj h
            rw [List.append_cancel_right_eq] at hw
            rw [hw, List.nil_append]
          · rename_i hdepth
            rw [if_neg hdepth]
            exact ih w.length (by omega) h rfl
        · rename_i hclose
          rw [if_neg hclose]
          exact ih (b :: w).length (by simp; omega) h rfl

/-! ## Names in backticks -/

def goesOn (c : Char) : Bool := c != '\x60' && c != '\n'

theorem closeName?_val (cs : List Char) :
    (closeName? cs).map Subtype.val =
      match cs.dropWhile goesOn with
      | '\x60' :: rest => some rest
      | _ => none := by
  unfold closeName? goesOn
  split <;> simp_all

theorem closeName?_append {w r : List Char} (h : (closeName? (w ++ r)).map Subtype.val = some r)
    (r' : List Char) : (closeName? (w ++ r')).map Subtype.val = some r' := by
  rw [closeName?_val] at h ⊢
  induction w with
  | nil =>
    have hlen := (List.dropWhile_suffix goesOn (l := r)).length_le
    split at h
    · rename_i rest heq
      cases h
      rw [List.nil_append] at heq
      rw [heq, List.length_cons] at hlen
      omega
    · cases h
  | cons c w ih =>
    by_cases hc : goesOn c = true
    · rw [List.cons_append, List.dropWhile_cons_of_pos hc] at h ⊢
      exact ih h
    · rw [List.cons_append, List.dropWhile_cons_of_neg hc] at h ⊢
      split at h
      · rename_i rest heq
        obtain ⟨rfl, hrest⟩ := List.cons.inj heq
        have hw : w ++ r = [] ++ r := hrest.trans (Option.some.inj h)
        rw [List.append_cancel_right_eq] at hw
        simp [hw]
      · cases h

/-! ## Numbers, ranges and operators -/

def startsFraction : List Char → Bool
  | '.' :: d :: _ => d.isDigit
  | _ => false

theorem numberTail_val (cs : List Char) :
    (numberTail cs).1 =
      match cs.dropWhile isNamePart with
      | '.' :: d :: more => if d.isDigit then (numberTail (d :: more)).1 else '.' :: d :: more
      | rest => rest := by
  rw [numberTail]
  split
  · rename_i d more h
    simp only [h]
    split <;> rfl
  · rename_i hne
    split
    · rename_i d more heq
      exact (hne d more heq).elim
    · rfl

theorem isNamePart_of_isDigit {c : Char} (h : c.isDigit = true) : isNamePart c = true := by
  simp only [Char.isDigit, Bool.and_eq_true, decide_eq_true_eq] at h
  have hlow : 48 ≤ c.toNat := h.1
  have hhigh : c.toNat ≤ 57 := h.2
  have hnumeric : Text.isNumeric c = true := by
    unfold Text.isNumeric Text.numericRanges Text.inRanges
    simp [hlow, hhigh]
  simp [isNamePart, Text.isAlphanumeric, hnumeric]

theorem numberTail_of_stops {r : List Char} (hstops : Stops isNamePart r)
    (hfraction : startsFraction r = false) : (numberTail r).1 = r := by
  rw [numberTail_val, dropWhile_of_stops hstops]
  split
  · rename_i d more
    rw [startsFraction] at hfraction
    simp [hfraction]
  · rfl

theorem numberTail_ne {c : Char} {cs : List Char} (hc : isNamePart c = true) :
    (numberTail (c :: cs)).1 ≠ c :: cs := by
  intro h
  rw [numberTail_val, List.dropWhile_cons_of_pos hc] at h
  have hlen := (List.dropWhile_suffix isNamePart (l := cs)).length_le
  split at h
  · rename_i d more heq
    rw [heq, List.length_cons] at hlen
    split at h
    · have := (numberTail (d :: more)).2.length_le
      rw [h] at this
      simp only [List.length_cons] at *
      omega
    · have := congrArg List.length h
      simp only [List.length_cons] at *
      omega
  · rw [h, List.length_cons] at hlen
    omega

theorem stops_of_numberTail {r : List Char} (h : (numberTail r).1 = r) :
    Stops isNamePart r ∧ startsFraction r = false := by
  have hstops : Stops isNamePart r := by
    cases r with
    | nil => exact stops_nil _
    | cons c cs =>
      rw [stops_cons, Bool.eq_false_iff]
      exact fun hc => numberTail_ne hc h
  refine ⟨hstops, ?_⟩
  rw [Bool.eq_false_iff]
  intro hfraction
  unfold startsFraction at hfraction
  split at hfraction
  · rename_i d more
    rw [numberTail_val, dropWhile_of_stops hstops] at h
    simp only [hfraction, if_true] at h
    have := (numberTail (d :: more)).2.length_le
    rw [h] at this
    simp only [List.length_cons] at this
    omega
  · cases hfraction

theorem numberTail_append {w r : List Char} (h : (numberTail (w ++ r)).1 = r) :
    (Stops isNamePart r ∧ startsFraction r = false) ∧
      ∀ r', Stops isNamePart r' → startsFraction r' = false → (numberTail (w ++ r')).1 = r' := by
  induction hn : w.length using Nat.strongRecOn generalizing w with
  | ind n ih =>
    have hlen := (List.dropWhile_suffix isNamePart (l := w)).length_le
    have hdrop (r' : List Char) : (w ++ r').dropWhile isNamePart =
        if (w.dropWhile isNamePart).isEmpty then r'.dropWhile isNamePart
        else w.dropWhile isNamePart ++ r' := List.dropWhile_append
    rw [numberTail_val, hdrop] at h
    simp only [numberTail_val (w ++ _), hdrop]
    match hw : w.dropWhile isNamePart with
    | [] =>
      simp only [hw, List.isEmpty_nil, if_true, ← numberTail_val] at h ⊢
      exact ⟨stops_of_numberTail h, fun r' => numberTail_of_stops⟩
    | [x] =>
      simp only [hw, List.isEmpty_cons, Bool.false_eq_true, if_false, List.cons_append,
        List.nil_append] at h
      -- A digit behind the point would belong to the number.
      split at h
      · rename_i d more heq
        obtain ⟨_, rfl⟩ := List.cons.inj heq
        split at h
        · rename_i hd
          exact absurd h (numberTail_ne (isNamePart_of_isDigit hd))
        · simp at h
      · simp at h
    | x :: d :: w' =>
      rw [hw, List.length_cons] at hlen
      simp only [hw, List.isEmpty_cons, Bool.false_eq_true, if_false, List.cons_append] at h ⊢
      have hne : ¬ x :: d :: (w' ++ r) = r := by
        intro heq
        have := congrArg List.length heq
        simp only [List.length_cons, List.length_append] at this
        omega
      by_cases hx : x = '.'
      · subst hx
        by_cases hd : d.isDigit = true
        · simp only [hd, if_true] at h ⊢
          exact ih (d :: w').length (by omega) h rfl
        · simp only [hd, if_false, Bool.false_eq_true] at h
          exact absurd h hne
      · exfalso
        split at h
        · rename_i heq
          exact hx (List.cons.inj heq).1
        · exact hne h

theorem rangeTail_val (cs : List Char) :
    (rangeTail cs).1 =
      match cs.dropWhile (· == '.') with
      | '<' :: rest => rest
      | rest => rest := by
  unfold rangeTail
  split
  · rename_i rest h
    simp only [h]
  · rename_i hne
    split
    · rename_i rest heq
      exact (hne rest heq).elim
    · rfl

def goesOnRange (c : Char) : Bool := c == '.' || c == '<'

theorem rangeTail_of_stops {r : List Char} (h : Stops goesOnRange r) : (rangeTail r).1 = r := by
  cases r with
  | nil => rfl
  | cons c cs =>
    simp only [stops_cons, goesOnRange, Bool.or_eq_false_iff, beq_eq_false_iff_ne] at h
    have hdrop : (c :: cs).dropWhile (· == '.') = c :: cs := by simp [h.1]
    rw [rangeTail_val, hdrop]
    split
    · rename_i heq
      exact absurd (List.cons.inj heq).1 h.2
    · rfl

theorem stops_of_rangeTail {r : List Char} (h : (rangeTail r).1 = r) : Stops goesOnRange r := by
  have hlen := (List.dropWhile_suffix (· == '.') (l := r)).length_le
  rw [rangeTail_val] at h
  split at h
  · rename_i rest heq
    rw [heq, h, List.length_cons] at hlen
    omega
  · rename_i hne
    have hstops := stops_of_dropWhile_eq h
    cases r with
    | nil => exact stops_nil _
    | cons c cs =>
      rw [stops_cons] at hstops ⊢
      rw [goesOnRange, hstops, Bool.false_or, beq_eq_false_iff_ne]
      rintro rfl
      exact hne cs h

theorem rangeTail_append {w r : List Char} (h : (rangeTail (w ++ r)).1 = r) :
    (w.getLast? = some '<' ∨ Stops goesOnRange r) ∧
      ∀ r', (w.getLast? = some '<' ∨ Stops goesOnRange r') → (rangeTail (w ++ r')).1 = r' := by
  have hdrop (r' : List Char) : (w ++ r').dropWhile (· == '.') =
      if (w.dropWhile (· == '.')).isEmpty then r'.dropWhile (· == '.')
      else w.dropWhile (· == '.') ++ r' := List.dropWhile_append
  rw [rangeTail_val, hdrop] at h
  simp only [rangeTail_val (w ++ _), hdrop]
  cases hw : w.dropWhile (· == '.') with
  | nil =>
    simp only [hw, List.isEmpty_nil, if_true, ← rangeTail_val] at h ⊢
    refine ⟨.inr (stops_of_rangeTail h), fun r' hr' => rangeTail_of_stops ?_⟩
    refine hr'.resolve_left fun hlast => ?_
    have hpoints := (dropWhile_append_eq_iff (w := w) (r := [])).1 (by rw [List.append_nil, hw])
    have hpoint := hpoints.1 '<' (List.mem_of_getLast? hlast)
    simp at hpoint
  | cons x w' =>
    simp only [hw, List.isEmpty_cons, Bool.false_eq_true, if_false, List.cons_append] at h ⊢
    split at h
    · rename_i rest heq
      obtain ⟨rfl, hrest⟩ := List.cons.inj heq
      have hw' : w' ++ r = [] ++ r := hrest.trans h
      rw [List.append_cancel_right_eq] at hw'
      subst hw'
      have hlast : w.getLast? = some '<' := by
        have hsplit := List.takeWhile_append_dropWhile (p := (· == '.')) (l := w)
        rw [hw] at hsplit
        rw [← hsplit]
        simp
      exact ⟨.inl hlast, fun _ _ => rfl⟩
    · have := congrArg List.length h
      simp only [List.length_cons, List.length_append] at this
      omega

theorem operatorTail_cons (c : Char) (cs : List Char) :
    (operatorTail (c :: cs)).1 =
      if !isOperatorChar c || startsComment (c :: cs) then c :: cs else (operatorTail cs).1 := by
  rw [operatorTail]
  split <;> rfl

def endsOperator (cs : List Char) : Prop := Stops isOperatorChar cs ∨ startsComment cs = true

theorem operatorTail_eq_self_iff {r : List Char} : (operatorTail r).1 = r ↔ endsOperator r := by
  cases r with
  | nil => simp [operatorTail, endsOperator, stops_nil]
  | cons c cs =>
    rw [operatorTail_cons, endsOperator, stops_cons]
    split
    · rename_i h
      simpa using h
    · rename_i h
      have := (operatorTail cs).2.length_le
      constructor
      · intro heq
        rw [heq, List.length_cons] at this
        omega
      · intro hor
        simp_all

theorem startsComment_append {c : Char} {w r r' : List Char} (hw : w ≠ []) :
    startsComment (c :: (w ++ r)) = startsComment (c :: (w ++ r')) := by
  cases w with
  | nil => exact absurd rfl hw
  | cons d w =>
    simp only [List.cons_append]
    unfold startsComment
    split <;> simp_all

/-- In front of an operator's end, a slash does not start a comment. -/
theorem startsComment_of_stops {c : Char} {r : List Char} (h : Stops isOperatorChar r) :
    startsComment (c :: r) = false := by
  unfold startsComment
  split
  · rename_i heq
    obtain ⟨_, rfl⟩ := List.cons.inj heq
    rw [stops_cons] at h
    cases h
  · rename_i heq
    obtain ⟨_, rfl⟩ := List.cons.inj heq
    rw [stops_cons] at h
    cases h
  · rfl

theorem startsComment_of_ne {c : Char} (h : c ≠ '/') (r : List Char) :
    startsComment (c :: r) = false := by
  unfold startsComment
  split <;> simp_all

theorem head?_of_startsComment {r : List Char} (h : startsComment r = true) :
    r.head? = some '/' := by
  unfold startsComment at h
  split at h <;> first | rfl | cases h

theorem operatorTail_append {c : Char} {w r : List Char} (h : (operatorTail (w ++ r)).1 = r)
    (hc : startsComment (c :: (w ++ r)) = false) :
    (endsOperator r ∧ (startsComment r = true → (c :: w).getLast? ≠ some '/')) ∧
      ∀ r', endsOperator r' → (startsComment r' = true → (c :: w).getLast? ≠ some '/') →
        (operatorTail (w ++ r')).1 = r' ∧ startsComment (c :: (w ++ r')) = false := by
  induction w generalizing c with
  | nil =>
    have hends := operatorTail_eq_self_iff.1 h
    refine ⟨⟨hends, fun hr hlast => ?_⟩, fun r' hr' hlast => ⟨operatorTail_eq_self_iff.2 hr', ?_⟩⟩
    · cases r with
      | nil => cases hr
      | cons d r =>
        have hslash := head?_of_startsComment hr
        simp only [List.head?_cons, Option.some.injEq] at hslash
        simp only [List.getLast?_singleton, Option.some.injEq] at hlast
        subst hslash hlast
        cases hc
    · rcases hr' with hstops | hcomment
      · exact startsComment_of_stops hstops
      · exact startsComment_of_ne (by simpa using hlast hcomment) r'
  | cons d w ih =>
    rw [List.cons_append, operatorTail_cons] at h
    split at h
    · have := congrArg List.length h
      simp only [List.length_cons, List.length_append] at this
      omega
    · rename_i hd
      simp only [Bool.or_eq_true, Bool.not_eq_true', not_or, Bool.not_eq_true] at hd
      obtain ⟨hends, hmore⟩ := ih h hd.2
      refine ⟨by simpa using hends, fun r' hr' hlast => ?_⟩
      obtain ⟨hrest, hcomment⟩ := hmore r' hr' (by simpa using hlast)
      rw [List.cons_append, operatorTail_cons, if_neg (by simp_all), hrest]
      refine ⟨rfl, ?_⟩
      rw [← hc]
      exact startsComment_append (w := d :: w) (by simp)

end PackageManifest.Proofs.Lexing
