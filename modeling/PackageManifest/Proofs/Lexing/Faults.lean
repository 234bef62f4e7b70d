import PackageManifest.Proofs.Lexing.Placement

/-!
# Where lexical faults lie

Main statement: `faultsInOrder`. What is wrong with a token lies inside of it, also when it was
found in a literal of an interpolation (`lexeme_fault`). As a token has one fault at most, the
faults of a text come in the order of the tokens that they are in.
-/

namespace PackageManifest.Proofs.Lexing

open Source

/-- A fault lies in `input` and not behind the place at which `rest` is left. -/
structure LiesIn (fault : Fault) (input rest : List Char) : Prop where
  ahead : fault.ahead <:+ input
  after : fault.after <:+ fault.ahead
  rest : rest <:+ fault.after

def faultyFrom (start : Nat) (ls : List (Token × Option Fault)) : List (PlacedToken × Fault) :=
  ((place start (ls.map Prod.fst)).zip ls).filterMap fun (p, _, fault?) => fault?.map (p, ·)

/-- The tokens of a text that are at fault, from left to right. -/
def faultyTokens (input : List Char) : List (PlacedToken × Fault) := faultyFrom 0 (lexemes input)

/-- The faults of a text are one in each token at fault, and they come in the order of these
tokens. -/
structure FaultsInOrder (input : List Char) : Prop where
  faults : (faultyTokens input).map Prod.snd = faults input
  tokens : ((faultyTokens input).map Prod.fst).Sublist (place 0 (tokens input))
  increasing : (faultyTokens input).Pairwise fun x y =>
    x.1.span.start < x.1.span.stop ∧ x.1.span.stop ≤ y.1.span.start
  inside : ∀ x ∈ faultyTokens input, x.1.span.start ≤ (x.2.span input).start ∧
    (x.2.span input).start ≤ (x.2.span input).stop ∧ (x.2.span input).stop ≤ x.1.span.stop

/-! ## Literals and interpolations -/

section Scans

variable {cs more : List Char}

theorem LiesIn.mono {fault : Fault} {input whole rest : List Char} (h : LiesIn fault input rest)
    (hinput : input <:+ whole) : LiesIn fault whole rest :=
  ⟨h.ahead.trans hinput, h.after, h.rest⟩

theorem lift_string_eq_error {h : more <:+ cs} {s : StringScan more} {fault : Fault} {t : Tail cs}
    (hs : s.lift h = .error (fault, t)) : ∃ u, s = .error (fault, u) ∧ u.1 = t.1 := by
  cases s with
  | ok u => cases hs
  | error e =>
    obtain ⟨rfl, rfl⟩ := Prod.mk.inj (Except.error.inj hs)
    exact ⟨e.2, rfl, rfl⟩

theorem lift_scan_eq_error {h : more <:+ cs} {s : Scan more} {fault : Fault}
    (hs : s.lift h = .error fault) : s = .error fault := by
  cases s with
  | ok u => cases hs
  | error e => exact congrArg Except.error (Except.error.inj hs)

abbrev StringFaults (_ : Fence) (start cs : List Char) (scan : StringScan cs) : Prop :=
  cs <:+ start → ∀ fault t, scan = .error (fault, t) → LiesIn fault start t.1

abbrev InterpolationFaults (start : List Char) (_ : Nat) (cs : List Char) (scan : Scan cs) : Prop :=
  cs <:+ start → ∀ fault, scan = .error fault → LiesIn fault start []

theorem stringFaults_lift {fence : Fence} {start : List Char} (h : more <:+ cs)
    {s : StringScan more} (hs : StringFaults fence start more s) :
    StringFaults fence start cs (s.lift h) := by
  intro hstart fault t hscan
  obtain ⟨u, hinner, hu⟩ := lift_string_eq_error hscan
  exact hu ▸ hs (h.trans hstart) fault u hinner

theorem interpolationFaults_lift {start : List Char} {depth inner : Nat} (h : more <:+ cs)
    {s : Scan more} (hs : InterpolationFaults start inner more s) :
    InterpolationFaults start depth cs (s.lift h) :=
  fun hstart fault hscan => hs (h.trans hstart) fault (lift_scan_eq_error hscan)

/-- Literals and interpolations stand in each other, so one induction treats both scans. -/
theorem scan_faults :
    (∀ fence start cs, StringFaults fence start cs (scanString fence start cs)) ∧
      ∀ start depth cs, InterpolationFaults start depth cs (scanInterpolation start depth cs) := by
  apply scanString.mutual_induct_unfolding StringFaults InterpolationFaults
  -- A literal that the text ends in.
  case case1 =>
    intro _ start hstart _ _ hscan
    obtain ⟨rfl, rfl⟩ := Prod.mk.inj (Except.error.inj hscan)
    exact ⟨List.suffix_rfl, hstart, List.suffix_rfl⟩
  case case2 =>
    intro _ _ _ _ _ _ _ _ _ hscan
    cases hscan
  -- An interpolation with a fault, which takes the literal with it.
  case case3 =>
    intro _ start c cs _ rest _ hrest _ _ inner hinner ih hstart _ _ hscan
    obtain ⟨rfl, rfl⟩ := Prod.mk.inj (Except.error.inj hscan)
    exact (ih List.suffix_rfl inner hinner).mono (hrest.trans hstart)
  case case4 => exact fun _ _ _ _ _ _ _ _ _ _ _ _ _ _ _ ih => stringFaults_lift _ ih
  case case5 => exact fun _ _ _ _ _ _ _ _ _ _ _ _ ih => stringFaults_lift _ ih
  -- A line break in a literal of one line.
  case case6 =>
    intro _ start c cs _ _ _ hstart _ _ hscan
    obtain ⟨rfl, rfl⟩ := Prod.mk.inj (Except.error.inj hscan)
    exact ⟨List.suffix_rfl, hstart, List.suffix_rfl⟩
  case case7 => exact fun _ _ _ _ _ _ _ ih => stringFaults_lift _ ih
  -- An interpolation that the text ends in.
  case case8 =>
    intro start _ hstart _ hscan
    obtain rfl := Except.error.inj hscan
    exact ⟨List.suffix_rfl, hstart, List.suffix_rfl⟩
  case case9 => exact fun _ _ _ ih => interpolationFaults_lift _ ih
  case case10 =>
    intro _ _ _ _ _ _ _ hscan
    cases hscan
  case case11 => exact fun _ _ _ _ _ ih => interpolationFaults_lift _ ih
  -- A literal with a fault in an interpolation; the fault need not reach to the end of the text.
  case case12 =>
    intro start _ c cs _ _ fence body _ hbody _ inner t hinner ih hstart _ hscan
    obtain rfl := Except.error.inj hscan
    have hlies := ih hbody inner t hinner
    exact ⟨hlies.ahead.trans hstart, hlies.after, List.nil_suffix⟩
  case case13 => exact fun _ _ _ _ _ _ _ _ _ _ _ _ _ _ _ _ ih => interpolationFaults_lift _ ih
  case case14 => exact fun _ _ _ _ _ _ _ ih => interpolationFaults_lift _ ih

end Scans

/-! ## Tokens -/

/-- What is wrong with a token lies inside of it. Most rules find no fault. -/
theorem lexeme_fault (c : Char) (cs : List Char) :
    ∀ fault ∈ (lexeme c cs).fault, LiesIn fault (c :: cs) (lexeme c cs).rest := by
  have hsingle (cause : FaultCause) (cs : List Char) :
      LiesIn ⟨cause, c :: cs, cs⟩ (c :: cs) cs :=
    ⟨List.suffix_rfl, List.suffix_cons c cs, List.suffix_rfl⟩
  apply lexeme.fun_cases_unfolding c
    (motive := fun cs l => ∀ fault ∈ l.fault, LiesIn fault (c :: cs) l.rest)
  case case7 =>
    intro cs _ _ _ _ _ _ fault hfault
    obtain rfl := Option.some.inj hfault
    exact ⟨List.suffix_rfl, List.nil_suffix, List.suffix_rfl⟩
  case case9 =>
    intro cs _ _ _ _ _ fence body _ tail inner rest hscan fault hfault
    obtain rfl := Option.some.inj hfault
    exact scan_faults.1 fence (c :: cs) body (tail.trans (List.suffix_cons c cs)) inner rest hscan
  case case12 =>
    intro cs _ _ _ _ _ _ _ _ _ fault hfault
    obtain rfl := Option.some.inj hfault
    exact hsingle .openName cs
  case case20 =>
    intro cs _ _ _ _ _ _ _ _ _ _ _ _ _ _ fault hfault
    obtain rfl := Option.some.inj hfault
    exact hsingle (.strayCharacter c) cs
  all_goals
    intros
    rename_i hfault
    cases hfault

/-! ## The tokens at fault -/

theorem faultyFrom_cons (start : Nat) (t : Token) (fault? : Option Fault)
    (ls : List (Token × Option Fault)) :
    faultyFrom start ((t, fault?) :: ls) =
      (fault?.map fun fault => (⟨t, ⟨start, start + Text.size t.text⟩⟩, fault)).toList ++
        faultyFrom (start + Text.size t.text) ls := by
  rw [faultyFrom, List.map_cons, place, List.zip_cons_cons, List.filterMap_cons, faultyFrom]
  cases fault? <;> rfl

theorem faultyFrom_snd (start : Nat) (ls : List (Token × Option Fault)) :
    (faultyFrom start ls).map Prod.snd = ls.filterMap Prod.snd := by
  induction ls generalizing start with
  | nil => rfl
  | cons l ls ih =>
    obtain ⟨t, fault?⟩ := l
    rw [faultyFrom_cons, List.map_append, ih, List.filterMap_cons]
    cases fault? <;> rfl

theorem faultyFrom_sublist (start : Nat) (ls : List (Token × Option Fault)) :
    ((faultyFrom start ls).map Prod.fst).Sublist (place start (ls.map Prod.fst)) := by
  induction ls generalizing start with
  | nil => exact List.nil_sublist _
  | cons l ls ih =>
    obtain ⟨t, fault?⟩ := l
    rw [faultyFrom_cons, List.map_append, List.map_cons, place]
    cases fault? with
    | none => exact (ih _).cons _
    | some fault => exact (ih _).cons_cons _

theorem mem_faultyFrom {before cs : List Char} {x : PlacedToken × Fault}
    (h : x ∈ faultyFrom (Text.size before) (lexemes cs)) :
    ∃ left right, before ++ cs = left ++ x.1.token.text ++ right ∧
      x.1.span = ⟨Text.size left, Text.size left + Text.size x.1.token.text⟩ ∧
      LiesIn x.2 (x.1.token.text ++ right) right := by
  induction hn : cs.length using Nat.strongRecOn generalizing before cs with
  | ind n ih =>
    cases cs with
    | nil => simp [lexemes, faultyFrom] at h
    | cons c cs =>
      rw [lexemes_cons, faultyFrom_cons, List.mem_append] at h
      have hwhole := (lexeme c cs).whole
      have hcut : before ++ c :: cs =
          before ++ (lexeme c cs).token.text ++ (lexeme c cs).rest :=
        (congrArg (before ++ ·) hwhole.symm).trans (List.append_assoc ..).symm
      rcases h with hfirst | hmore
      · rw [Option.mem_toList, Option.map_eq_some_iff] at hfirst
        obtain ⟨fault, hfault, rfl⟩ := hfirst
        exact ⟨before, (lexeme c cs).rest, hcut, rfl,
          (lexeme_fault c cs fault hfault).mono ⟨[], hwhole.symm⟩⟩
      · have hlt : (lexeme c cs).rest.length < n := hn ▸ (lexeme c cs).length_rest_lt
        rw [← Text.size_append] at hmore
        obtain ⟨left, right, hsplit, hplace⟩ := ih _ hlt hmore rfl
        exact ⟨left, right, hcut.trans hsplit, hplace⟩

theorem mem_faultyTokens {input : List Char} {x : PlacedToken × Fault}
    (h : x ∈ faultyTokens input) :
    ∃ left right, input = left ++ x.1.token.text ++ right ∧
      x.1.span = ⟨Text.size left, Text.size left + Text.size x.1.token.text⟩ ∧
      LiesIn x.2 (x.1.token.text ++ right) right :=
  @mem_faultyFrom [] input x h

theorem LiesIn.size {fault : Fault} {input rest : List Char} (h : LiesIn fault input rest) :
    Text.size rest ≤ Text.size fault.after ∧ Text.size fault.after ≤ Text.size fault.ahead ∧
      Text.size fault.ahead ≤ Text.size input := by
  have hsuffix {a b : List Char} (hab : a <:+ b) : Text.size a ≤ Text.size b := by
    obtain ⟨front, rfl⟩ := hab
    rw [Text.size_append]
    omega
  exact ⟨hsuffix h.rest, hsuffix h.after, hsuffix h.ahead⟩

/-- In any text, the faults come in the order of the tokens that they lie in. -/
theorem faultsInOrder (input : List Char) : FaultsInOrder input := by
  have hsublist := faultyFrom_sublist 0 (lexemes input)
  refine ⟨faultyFrom_snd 0 (lexemes input), hsublist, ?_, fun x hx => ?_⟩
  · have hplace := place_pairwise 0 fun t (ht : t ∈ tokens input) => (mem_tokens ht).1
    exact List.pairwise_map.1 (hplace.sublist hsublist)
  · obtain ⟨left, right, hsplit, hspan, hlies⟩ := mem_faultyTokens hx
    have hsize := congrArg Text.size hsplit
    have hfault := hlies.size
    simp only [Text.size_append] at hsize hfault
    rw [hspan, Fault.span, spanBetween]
    dsimp only
    omega

end PackageManifest.Proofs.Lexing
