import PackageManifest.Proofs.Lexing.Cut
import PackageManifest.Source.Literal

/-!
# Written string literals

Any text can be written as a string literal: the literal is cut off as one token, whatever follows
it but a quote, and reading it gives the text back.
-/

namespace PackageManifest.Proofs.Lexing

open Source Literal

theorem encodeChar_cases (c : Char) :
    (∃ d, encodeChar c = ['\\', d] ∧ d ≠ '(' ∧ escaped d = c) ∨
      (encodeChar c = [c] ∧ c ≠ '\\' ∧ c ≠ '"' ∧ c ≠ '\n' ∧ c ≠ '\r') := by
  unfold encodeChar
  split
  · rename_i h
    exact .inl ⟨'\\', rfl, by decide, h.symm⟩
  split
  · rename_i h
    exact .inl ⟨'"', rfl, by decide, h.symm⟩
  split
  · rename_i h
    exact .inl ⟨'n', rfl, by decide, h.symm⟩
  split
  · rename_i h
    exact .inl ⟨'r', rfl, by decide, h.symm⟩
  split
  · rename_i h
    exact .inl ⟨'t', rfl, by decide, h.symm⟩
  · rename_i hslash hquote hfeed hreturn _
    exact .inr ⟨rfl, hslash, hquote, hfeed, hreturn⟩

theorem head?_encoded (cs : List Char) : (cs.flatMap encodeChar).head? ≠ some '"' := by
  cases cs with
  | nil => simp
  | cons c cs =>
    rw [List.flatMap_cons]
    rcases encodeChar_cases c with ⟨d, heq, _⟩ | ⟨heq, _, hquote, _⟩
    · simp [heq]
    · simpa [heq] using hquote

/-! ## The cut -/

theorem restOf_scanString_encoded (start cs rest : List Char) :
    restOf (scanString ⟨0, false⟩ start (cs.flatMap encodeChar ++ '"' :: rest)) = some rest := by
  induction cs with
  | nil =>
    rw [List.flatMap_nil, List.nil_append, restOf_scanString_cons]
    rfl
  | cons c cs ih =>
    rw [List.flatMap_cons, List.append_assoc]
    rcases encodeChar_cases c with ⟨d, heq, hparen, _⟩ | ⟨heq, hslash, hquote, hfeed, hreturn⟩
    · rw [heq, List.cons_append, List.cons_append, List.nil_append, restOf_scanString_cons]
      have hescape : Text.after? (Fence.escape ⟨0, false⟩)
          ('\\' :: d :: (cs.flatMap encodeChar ++ '"' :: rest)) =
            some (d :: (cs.flatMap encodeChar ++ '"' :: rest)) := rfl
      have hclose : Text.after? (Fence.closing ⟨0, false⟩)
          ('\\' :: d :: (cs.flatMap encodeChar ++ '"' :: rest)) = none := rfl
      have hhead : ¬ (d :: (cs.flatMap encodeChar ++ '"' :: rest)).head? = some '(' := by
        simpa using hparen
      simp only [hclose, hescape]
      rw [if_neg hhead]
      exact ih
    · rw [heq, List.singleton_append, restOf_scanString_cons]
      have hclose : Text.after? (Fence.closing ⟨0, false⟩)
          (c :: (cs.flatMap encodeChar ++ '"' :: rest)) = none := if_neg hquote.symm
      have hescape : Text.after? (Fence.escape ⟨0, false⟩)
          (c :: (cs.flatMap encodeChar ++ '"' :: rest)) = none := if_neg hslash.symm
      simp only [hclose, hescape]
      rw [if_neg (by simp [hfeed, hreturn])]
      exact ih

/-- A written literal is one token. -/
theorem cuts_encode (cs : List Char) {rest : List Char} (hrest : Stops (· == '"') rest) :
    Cuts ⟨.stringLit, encode cs⟩ rest := by
  have hbody : cs.flatMap encodeChar ++ ['"'] ++ rest = cs.flatMap encodeChar ++ '"' :: rest := by
    simp
  have hopen : Fence.open? ('"' :: (cs.flatMap encodeChar ++ ['"'] ++ rest)) =
      some (⟨0, false⟩, cs.flatMap encodeChar ++ '"' :: rest) := by
    have hpounds := open?_pounds 0 (cs.flatMap encodeChar ++ '"' :: rest)
    rw [hbody]
    rw [List.replicate_zero, List.nil_append] at hpounds
    rw [hpounds]
    split
    · -- Three quotes: the text is empty and a quote follows.
      rename_i body heq
      have hhead := head?_encoded cs
      cases hmore : cs.flatMap encodeChar with
      | nil =>
        rw [hmore, List.nil_append] at heq
        rw [(List.cons.inj heq).2] at hrest
        cases stops_cons.1 hrest
      | cons d more =>
        rw [hmore] at heq hhead
        exact absurd (congrArg some (List.cons.inj heq).1) hhead
    · rfl
  refine cuts_iff.2 ⟨'"', cs.flatMap encodeChar ++ ['"'], rfl, ?_⟩
  rw [cut?_of_open? hopen, restOf_scanString_encoded]
  rfl

/-! ## Reading it back -/

theorem unescape_encoded (cs : List Char) : unescape (cs.flatMap encodeChar) = some cs := by
  induction cs with
  | nil => rfl
  | cons c cs ih =>
    rw [List.flatMap_cons]
    rcases encodeChar_cases c with ⟨d, heq, hparen, hd⟩ | ⟨heq, hslash, _⟩
    · rw [heq, List.cons_append, List.singleton_append, unescape, if_pos rfl, if_neg hparen, ih, hd]
      rfl
    · rw [heq, List.singleton_append]
      cases hmore : cs.flatMap encodeChar with
      | nil =>
        rw [hmore] at ih
        rw [unescape, if_neg hslash]
        exact congrArg (Option.map (c :: ·)) ih
      | cons d more =>
        rw [hmore] at ih
        rw [unescape, if_neg hslash, ih]
        rfl

theorem decode?_encode (cs : List Char) : decode? (encode cs) = some cs := by
  have hpounds : ((encode cs).takeWhile (· == '#')).length = 0 := rfl
  have hbody : ((encode cs).drop 0).take ((encode cs).length - 2 * 0) = encode cs := by
    rw [List.drop_zero, Nat.mul_zero, Nat.sub_zero, List.take_length]
  have hthree : Text.startsWith ['"', '"', '"'] (encode cs) = false := by
    rw [Text.startsWith, Bool.eq_false_iff]
    intro hsome
    obtain ⟨rest, hrest⟩ := Option.isSome_iff_exists.1 hsome
    have heq := Text.after?_eq_some_iff.1 hrest
    have hhead := head?_encoded cs
    cases hmore : cs.flatMap encodeChar with
    | nil => simp [encode, hmore] at heq
    | cons d more => simp_all [encode]
  have hinner : unquote? (encode cs) = some (cs.flatMap encodeChar) := by
    have : Text.before? ['"'] (cs.flatMap encodeChar ++ ['"']) = some (cs.flatMap encodeChar) := by
      simp [Text.before?, Text.after?]
    exact this
  simp only [decode?, hpounds, hbody, hthree, hinner]
  exact unescape_encoded cs

end PackageManifest.Proofs.Lexing
