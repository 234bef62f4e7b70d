import PackageManifest.Proofs.Lexing.Scans

/-!
# Where string literals end

A scan of a string literal, and of the interpolations in it, does not depend on what is behind the
literal.
-/

namespace PackageManifest.Proofs.Lexing

open Source

def restOf {ε : Type} {cs : List Char} : Except ε (Tail cs) → Option (List Char)
  | .ok t => some t.1
  | .error _ => none

theorem restOf_eq_some {ε : Type} {cs rest : List Char} {result : Except ε (Tail cs)}
    (h : restOf result = some rest) : rest <:+ cs := by
  cases result with
  | error e => cases h
  | ok t =>
    cases h
    exact t.2

@[simp] theorem restOf_lift_string {cs more : List Char} (h : more <:+ cs) (s : StringScan more) :
    restOf (s.lift h) = restOf s := by
  cases s <;> rfl

@[simp] theorem restOf_lift_scan {cs more : List Char} (h : more <:+ cs) (s : Scan more) :
    restOf (s.lift h) = restOf s := by
  cases s <;> rfl

theorem restOf_scanString_nil (fence : Fence) (start : List Char) :
    restOf (scanString fence start []) = none := by
  unfold scanString
  rfl

theorem restOf_scanString_cons (fence : Fence) (start : List Char) (c : Char) (cs : List Char) :
    restOf (scanString fence start (c :: cs)) =
      match Text.after? fence.closing (c :: cs) with
      | some rest => some rest
      | none =>
        match Text.after? fence.escape (c :: cs) with
        | some rest =>
          if rest.head? = some '(' then
            (restOf (scanInterpolation rest 0 rest)).bind fun more =>
              restOf (scanString fence start more)
          else restOf (scanString fence start (rest.drop 1))
        | none =>
          if !fence.multiline && (c == '\n' || c == '\r') then none
          else restOf (scanString fence start cs) := by
  rw [scanString]
  split
  · rename_i rest hclose
    simp only [hclose]
    rfl
  · rename_i hclose
    simp only [hclose]
    split
    · rename_i rest hescape
      simp only [hescape]
      split
      · cases scanInterpolation rest 0 rest with
        | error fault => rfl
        | ok t => exact restOf_lift_string _ _
      · exact restOf_lift_string _ _
    · rename_i hescape
      simp only [hescape]
      split
      · rfl
      · exact restOf_lift_string _ _

theorem restOf_scanInterpolation_nil (start : List Char) (depth : Nat) :
    restOf (scanInterpolation start depth []) = none := by
  unfold scanInterpolation
  rfl

theorem restOf_scanInterpolation_cons (start : List Char) (depth : Nat) (c : Char)
    (cs : List Char) :
    restOf (scanInterpolation start depth (c :: cs)) =
      if c = '(' then restOf (scanInterpolation start (depth + 1) cs)
      else if c = ')' then
        if depth ≤ 1 then some cs else restOf (scanInterpolation start (depth - 1) cs)
      else
        match Fence.open? (c :: cs) with
        | some (fence, body) =>
          (restOf (scanString fence (c :: cs) body)).bind fun more =>
            restOf (scanInterpolation start depth more)
        | none => restOf (scanInterpolation start depth cs) := by
  rw [scanInterpolation]
  split
  · exact restOf_lift_scan _ _
  · split
    · split
      · rfl
      · exact restOf_lift_scan _ _
    · split
      · rename_i fence body hopen
        simp only [hopen]
        cases scanString fence (c :: cs) body with
        | error fault => rfl
        | ok t => exact restOf_lift_scan _ _
      · rename_i hopen
        simp only [hopen]
        exact restOf_lift_scan _ _

theorem length_lt_of_scanString {fence : Fence} {start cs rest : List Char}
    (h : restOf (scanString fence start cs) = some rest) : rest.length < cs.length := by
  cases cs with
  | nil =>
    rw [restOf_scanString_nil] at h
    cases h
  | cons c cs =>
    rw [restOf_scanString_cons] at h
    split at h
    · rename_i hclose
      cases h
      exact Fence.length_lt_of_closing hclose
    · split at h
      · rename_i more hescape
        have hlt := Fence.length_lt_of_escape hescape
        split at h
        · obtain ⟨after, hinside, hrest⟩ := Option.bind_eq_some_iff.1 h
          have := (restOf_eq_some hinside).length_le
          have := (restOf_eq_some hrest).length_le
          omega
        · have := (restOf_eq_some h).length_le
          simp only [List.length_drop] at this
          omega
      · split at h
        · cases h
        · have := (restOf_eq_some h).length_le
          exact Nat.lt_succ_of_le this

theorem length_lt_of_scanInterpolation {start cs rest : List Char} {depth : Nat}
    (h : restOf (scanInterpolation start depth cs) = some rest) : rest.length < cs.length := by
  cases cs with
  | nil =>
    rw [restOf_scanInterpolation_nil] at h
    cases h
  | cons c cs =>
    rw [restOf_scanInterpolation_cons] at h
    split at h
    · exact Nat.lt_succ_of_le (restOf_eq_some h).length_le
    · split at h
      · split at h
        · cases h
          exact Nat.lt_succ_self _
        · exact Nat.lt_succ_of_le (restOf_eq_some h).length_le
      · split at h
        · rename_i fence body hopen
          have hlt := Fence.length_lt_of_open? hopen
          obtain ⟨after, hinside, hrest⟩ := Option.bind_eq_some_iff.1 h
          have := (restOf_eq_some hinside).length_le
          have := (restOf_eq_some hrest).length_le
          omega
        · exact Nat.lt_succ_of_le (restOf_eq_some h).length_le

/-! ## Fences -/

/-- A fence ends before any other character, so what is behind that does not matter. -/
theorem open?_append {w : List Char} (h : ∃ c ∈ w, c ≠ '#' ∧ c ≠ '"') (r : List Char) :
    Fence.open? (w ++ r) = (Fence.open? w).map fun p => (p.1, p.2 ++ r) := by
  have hne : w.dropWhile (· == '#') ≠ [] := by
    intro hnil
    obtain ⟨c, hc, hpound, _⟩ := h
    have hpounds := (dropWhile_append_eq_iff (w := w) (r := [])).1 (by rw [List.append_nil, hnil])
    exact hpound (by simpa using hpounds.1 c hc)
  have hother : ∃ c ∈ w.dropWhile (· == '#'), c ≠ '"' := by
    obtain ⟨c, hc, hpound, hquote⟩ := h
    rw [← List.takeWhile_append_dropWhile (p := (· == '#')) (l := w), List.mem_append] at hc
    rcases hc with hc | hc
    · have := List.all_eq_true.1 (List.all_takeWhile (l := w) (p := (· == '#'))) c hc
      exact absurd (by simpa using this) hpound
    · exact ⟨c, hc, hquote⟩
  have hdrop : (w ++ r).dropWhile (· == '#') = w.dropWhile (· == '#') ++ r := by
    rw [List.dropWhile_append, if_neg (by simpa using hne)]
  have htake : (w ++ r).takeWhile (· == '#') = w.takeWhile (· == '#') := by
    rw [List.takeWhile_append, if_neg]
    intro hlen
    apply hne
    have hsplit := congrArg List.length (List.takeWhile_append_dropWhile (p := (· == '#')) (l := w))
    rw [List.length_append] at hsplit
    exact List.length_eq_zero_iff.1 (by omega)
  simp only [Fence.open?, hdrop, htake]
  rcases hv : w.dropWhile (· == '#') with _ | ⟨a, _ | ⟨b, _ | ⟨c, v⟩⟩⟩
  · exact absurd hv hne
  · rw [hv] at hother
    have ha : a ≠ '"' := by simpa using hother
    simp [ha]
  · rw [hv] at hother
    by_cases ha : a = '"'
    · have hb : b ≠ '"' := by simpa [ha] using hother
      simp [ha, hb]
    · simp [ha]
  · by_cases ha : a = '"'
    · by_cases hb : b = '"'
      · by_cases hc : c = '"'
        · simp [ha, hb, hc]
        · simp [ha, hb, hc]
      · simp [ha, hb]
    · simp [ha]

/-! ## Literals and interpolations -/

theorem length_escape_le (fence : Fence) : fence.escape.length ≤ fence.closing.length := by
  have : 0 < fence.quotes.length := by
    unfold Fence.quotes
    split <;> simp
  simp only [Fence.escape, Fence.closing, List.length_cons, List.length_append,
    List.length_replicate]
  omega

/-- A literal with the fence ends behind `w`, whatever is there. -/
def EndsBehind (fence : Fence) (w : List Char) : Prop :=
  fence.closing.length ≤ w.length ∧
    ∀ start r, restOf (scanString fence start (w ++ r)) = some r

/-- The scan of a literal that ends behind `w` once ends there always. -/
def LiteralEnds (w : List Char) : Prop :=
  ∀ {fence : Fence} {start r : List Char}, restOf (scanString fence start (w ++ r)) = some r →
    EndsBehind fence w

def InterpolationEnds (w : List Char) : Prop :=
  ∀ {start r : List Char} {depth : Nat},
    restOf (scanInterpolation start depth (w ++ r)) = some r →
    ')' ∈ w ∧ ∀ start' r', restOf (scanInterpolation start' depth (w ++ r')) = some r'

/-- A text that is too long to straddle its end does not start differently in front of others. -/
theorem after?_eq_none_again {start w r : List Char} (hlen : start.length ≤ w.length)
    (h : Text.after? start (w ++ r) = none) (r' : List Char) :
    Text.after? start (w ++ r') = none := by
  rw [after?_append hlen, Option.map_eq_none_iff] at h ⊢
  exact h

section Literal

variable {fence : Fence} {start w r : List Char} {c : Char}

theorem literalEnds_closing (h : Text.after? fence.closing (c :: w ++ r) = some r) :
    EndsBehind fence (c :: w) := by
  have hw : c :: w = fence.closing := List.append_cancel_right (Text.after?_eq_some_iff.1 h)
  refine ⟨Nat.le_of_eq (congrArg List.length hw.symm), fun start' r' => ?_⟩
  have hclose : Text.after? fence.closing (c :: (w ++ r')) = some r' := by
    rw [Text.after?_eq_some_iff, ← List.cons_append, hw]
  rw [List.cons_append, restOf_scanString_cons, hclose]

theorem literalEnds_interpolation {w₁ w₂ : List Char} (hw : c :: w = fence.escape ++ (w₁ ++ w₂))
    (hclose : Text.after? fence.closing (c :: w ++ r) = none)
    (hparen : (w₁ ++ (w₂ ++ r)).head? = some '(')
    (hin : restOf (scanInterpolation (w₁ ++ (w₂ ++ r)) 0 (w₁ ++ (w₂ ++ r))) = some (w₂ ++ r))
    (hout : restOf (scanString fence start (w₂ ++ r)) = some r) (hinside : InterpolationEnds w₁)
    (hstring : LiteralEnds w₂) : EndsBehind fence (c :: w) := by
  obtain ⟨_, hinEnds⟩ := hinside hin
  obtain ⟨hfence, houtEnds⟩ := hstring hout
  have hlen : fence.closing.length ≤ (c :: w).length := by
    have := congrArg List.length hw
    simp only [List.length_append] at this
    omega
  have hne : w₁ ≠ [] := by
    rintro rfl
    exact absurd (length_lt_of_scanInterpolation hin) (Nat.lt_irrefl _)
  obtain ⟨x, w₃, rfl⟩ := List.exists_cons_of_ne_nil hne
  refine ⟨hlen, fun start' r' => ?_⟩
  have hclose' := after?_eq_none_again hlen hclose r'
  have hescape : Text.after? fence.escape (c :: (w ++ r')) = some (x :: w₃ ++ (w₂ ++ r')) := by
    rw [Text.after?_eq_some_iff, ← List.cons_append, hw]
    simp
  rw [List.cons_append] at hclose' ⊢
  rw [restOf_scanString_cons, hclose', hescape]
  simp only
  rw [if_pos (by simpa using hparen), hinEnds, Option.bind_some]
  exact houtEnds start' r'

theorem literalEnds_escaped {x : Char} {w₁ : List Char} (hw : c :: w = fence.escape ++ x :: w₁)
    (hclose : Text.after? fence.closing (c :: w ++ r) = none) (hparen : x ≠ '(')
    (hscan : restOf (scanString fence start (w₁ ++ r)) = some r) (hstring : LiteralEnds w₁) :
    EndsBehind fence (c :: w) := by
  obtain ⟨hfence, hends⟩ := hstring hscan
  have hlen : fence.closing.length ≤ (c :: w).length := by
    have := congrArg List.length hw
    simp only [List.length_append, List.length_cons] at this ⊢
    omega
  refine ⟨hlen, fun start' r' => ?_⟩
  have hclose' := after?_eq_none_again hlen hclose r'
  have hescape : Text.after? fence.escape (c :: (w ++ r')) = some (x :: (w₁ ++ r')) := by
    rw [Text.after?_eq_some_iff, ← List.cons_append, hw]
    simp
  rw [List.cons_append] at hclose' ⊢
  rw [restOf_scanString_cons, hclose', hescape]
  simp only
  rw [if_neg (by simpa using hparen)]
  exact hends start' r'

theorem literalEnds_plain (hclose : Text.after? fence.closing (c :: w ++ r) = none)
    (hescape : Text.after? fence.escape (c :: w ++ r) = none)
    (hline : ¬(!fence.multiline && (c == '\n' || c == '\r')) = true)
    (hscan : restOf (scanString fence start (w ++ r)) = some r) (hstring : LiteralEnds w) :
    EndsBehind fence (c :: w) := by
  obtain ⟨hfence, hends⟩ := hstring hscan
  have hlen : fence.closing.length ≤ (c :: w).length := Nat.le_succ_of_le hfence
  refine ⟨hlen, fun start' r' => ?_⟩
  have hclose' := after?_eq_none_again hlen hclose r'
  have hescape' := after?_eq_none_again (Nat.le_trans (length_escape_le fence) hlen) hescape r'
  rw [List.cons_append] at hclose' hescape' ⊢
  rw [restOf_scanString_cons, hclose', hescape']
  simp only [hline, if_false, Bool.false_eq_true]
  exact hends start' r'

end Literal

theorem literalEnds_step {w : List Char}
    (hstring : ∀ v : List Char, v.length < w.length → LiteralEnds v)
    (hinside : ∀ v : List Char, v.length < w.length → InterpolationEnds v) :
    LiteralEnds w := by
  intro fence start r h
  cases w with
  | nil => exact absurd (length_lt_of_scanString h) (Nat.lt_irrefl _)
  | cons c w =>
    rw [List.cons_append, restOf_scanString_cons] at h
    split at h
    · rename_i rest hclose
      cases h
      exact literalEnds_closing hclose
    · rename_i hclose
      split at h
      · rename_i rest hescape
        have hwhole := Text.after?_eq_some_iff.1 hescape
        have pass {w₂ : List Char} (hrest : rest = w₂ ++ r) : c :: w = fence.escape ++ w₂ := by
          rw [hrest, ← List.append_assoc, ← List.cons_append] at hwhole
          exact List.append_cancel_right hwhole
        have hpos : 0 < fence.escape.length := by simp [Fence.escape]
        split at h
        · rename_i hparen
          obtain ⟨more, hin, hout⟩ := Option.bind_eq_some_iff.1 h
          obtain ⟨w₁, rfl⟩ := restOf_eq_some hin
          obtain ⟨w₂, rfl⟩ := restOf_eq_some hout
          have hw := pass (List.append_assoc w₁ w₂ r).symm
          have hlen := congrArg List.length hw
          simp only [List.length_append] at hlen
          exact literalEnds_interpolation hw hclose hparen hin hout (hinside w₁ (by omega))
            (hstring w₂ (by omega))
        · rename_i hparen
          have hlt := length_lt_of_scanString h
          obtain ⟨w₁, rfl⟩ := (restOf_eq_some h).trans (List.drop_suffix 1 rest)
          have hw := pass rfl
          have hlen := congrArg List.length hw
          cases w₁ with
          | nil =>
            simp only [List.nil_append, List.length_drop] at hlt
            omega
          | cons x w₁ =>
            simp only [List.length_append, List.length_cons] at hlen
            exact literalEnds_escaped hw hclose (by simpa using hparen) h
              (hstring w₁ (by simp only [List.length_cons]; omega))
      · rename_i hescape
        split at h
        · cases h
        · rename_i hline
          exact literalEnds_plain hclose hescape hline h (hstring w (Nat.lt_succ_self _))

theorem interpolationEnds_literal {w w₁ w₂ r start : List Char} {c : Char} {depth : Nat}
    {fence : Fence} (hopen : c ≠ '(') (hclose : c ≠ ')')
    (hfence : Fence.open? (c :: (w ++ r)) = some (fence, w₁ ++ (w₂ ++ r)))
    (hin : restOf (scanString fence (c :: (w ++ r)) (w₁ ++ (w₂ ++ r))) = some (w₂ ++ r))
    (hout : restOf (scanInterpolation start depth (w₂ ++ r)) = some r)
    (hstring : LiteralEnds w₁) (hinside : InterpolationEnds w₂) :
    ')' ∈ c :: w ∧ ∀ start' r',
      restOf (scanInterpolation start' depth (c :: w ++ r')) = some r' := by
  obtain ⟨_, hinEnds⟩ := hstring hin
  obtain ⟨hparen, houtEnds⟩ := hinside hout
  have hmem : ')' ∈ c :: w := by
    have hwhole := Fence.open?_eq_some hfence
    rw [← List.append_assoc, ← List.append_assoc, ← List.cons_append] at hwhole
    rw [List.append_cancel_right hwhole]
    exact List.mem_append_right _ hparen
  have hfence' (r' : List Char) :
      Fence.open? (c :: (w ++ r')) = some (fence, w₁ ++ (w₂ ++ r')) := by
    rw [← List.cons_append, open?_append ⟨')', hmem, by decide, by decide⟩] at hfence ⊢
    obtain ⟨⟨fence', body⟩, hopen', heq⟩ := Option.map_eq_some_iff.1 hfence
    simp only [Prod.mk.injEq, ← List.append_assoc, List.append_cancel_right_eq] at heq
    rw [hopen', Option.map_some, heq.1, heq.2, List.append_assoc]
  refine ⟨hmem, fun start' r' => ?_⟩
  rw [List.cons_append, restOf_scanInterpolation_cons, if_neg hopen, if_neg hclose, hfence']
  simp only
  rw [hinEnds, Option.bind_some]
  exact houtEnds start' r'

theorem interpolationEnds_step {w : List Char}
    (hstring : ∀ v : List Char, v.length < w.length → LiteralEnds v)
    (hinside : ∀ v : List Char, v.length < w.length → InterpolationEnds v) :
    InterpolationEnds w := by
  intro start r depth h
  cases w with
  | nil => exact absurd (length_lt_of_scanInterpolation h) (Nat.lt_irrefl _)
  | cons c w =>
    rw [List.cons_append, restOf_scanInterpolation_cons] at h
    have deeper {d : Nat} (h : restOf (scanInterpolation start d (w ++ r)) = some r) :
        ')' ∈ c :: w ∧
          ∀ start' r', restOf (scanInterpolation start' d (w ++ r')) = some r' := by
      obtain ⟨hmem, hends⟩ := hinside w (Nat.lt_succ_self _) h
      exact ⟨List.mem_cons_of_mem c hmem, hends⟩
    split at h
    · rename_i hopen
      obtain ⟨hmem, hends⟩ := deeper h
      refine ⟨hmem, fun start' r' => ?_⟩
      rw [List.cons_append, restOf_scanInterpolation_cons, if_pos hopen]
      exact hends start' r'
    · rename_i hopen
      split at h
      · rename_i hclose
        split at h
        · rename_i hdepth
          have hw : w ++ r = [] ++ r := Option.some.inj h
          rw [List.append_cancel_right_eq] at hw
          refine ⟨by simp [hclose], fun start' r' => ?_⟩
          rw [List.cons_append, restOf_scanInterpolation_cons, if_neg hopen, if_pos hclose,
            if_pos hdepth, hw, List.nil_append]
        · rename_i hdepth
          obtain ⟨hmem, hends⟩ := deeper h
          refine ⟨hmem, fun start' r' => ?_⟩
          rw [List.cons_append, restOf_scanInterpolation_cons, if_neg hopen, if_pos hclose,
            if_neg hdepth]
          exact hends start' r'
      · rename_i hclose
        split at h
        · rename_i fence body hfence
          obtain ⟨more, hin, hout⟩ := Option.bind_eq_some_iff.1 h
          obtain ⟨w₁, rfl⟩ := restOf_eq_some hin
          obtain ⟨w₂, rfl⟩ := restOf_eq_some hout
          have hlen := congrArg List.length (Fence.open?_eq_some hfence)
          have hlt := Fence.length_lt_of_open? hfence
          simp only [List.length_append, List.length_cons] at hlen hlt
          exact interpolationEnds_literal hopen hclose hfence hin hout
            (hstring w₁ (by simp only [List.length_cons]; omega))
            (hinside w₂ (by simp only [List.length_cons]; omega))
        · rename_i hfence
          obtain ⟨hmem, hends⟩ := deeper h
          have hfence' (r' : List Char) : Fence.open? (c :: (w ++ r')) = none := by
            rw [← List.cons_append, open?_append ⟨')', hmem, by decide, by decide⟩] at hfence ⊢
            rw [Option.map_eq_none_iff] at hfence ⊢
            exact hfence
          refine ⟨hmem, fun start' r' => ?_⟩
          rw [List.cons_append, restOf_scanInterpolation_cons, if_neg hopen, if_neg hclose,
            hfence']
          exact hends start' r'

theorem ends_of_length (n : Nat) :
    ∀ w : List Char, w.length = n → LiteralEnds w ∧ InterpolationEnds w := by
  induction n using Nat.strongRecOn with
  | ind n ih =>
    rintro w rfl
    have hstring (v : List Char) (hv : v.length < w.length) : LiteralEnds v := (ih _ hv v rfl).1
    have hinside (v : List Char) (hv : v.length < w.length) : InterpolationEnds v :=
      (ih _ hv v rfl).2
    exact ⟨literalEnds_step hstring hinside, interpolationEnds_step hstring hinside⟩

theorem literalEnds (w : List Char) : LiteralEnds w := (ends_of_length _ w rfl).1

end PackageManifest.Proofs.Lexing
