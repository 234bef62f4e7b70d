import PackageManifest.Proofs.Grammar.Matching

/-!
# Well-matched delimiters

The delimiters of a text as a word of their own. `WellMatched` describes the words in which every
closing delimiter closes the last opening one that is still open, by how they are nested and without
a stack; `matched_iff` says that the stack of due delimiters accepts exactly these.
-/

namespace PackageManifest.Proofs.Grammar

open Source

/-- Every opening delimiter is closed by one of its own kind, behind what is well matched. -/
inductive WellMatched : List TokenKind → Prop
  | nil : WellMatched []
  | pair {opening close : TokenKind} {inside rest : List TokenKind} :
      opening.closing? = some close → WellMatched inside → WellMatched rest →
      WellMatched (opening :: inside ++ close :: rest)

def delimiters (ts : List Token) : List TokenKind :=
  (ts.map Token.kind).filter fun kind => kind.isOpening || kind.isClosing

def dueBehindAll (due kinds : List TokenKind) : Option (List TokenKind) :=
  kinds.foldlM dueAfter due

theorem dueBehindAll_cons (due : List TokenKind) (kind : TokenKind) (kinds : List TokenKind) :
    dueBehindAll due (kind :: kinds) =
      (dueAfter due kind).bind fun next => dueBehindAll next kinds := rfl

theorem dueBehindAll_append (due kinds more : List TokenKind) :
    dueBehindAll due (kinds ++ more) =
      (dueBehindAll due kinds).bind fun next => dueBehindAll next more := by
  unfold dueBehindAll
  rw [List.foldlM_append]
  rfl

theorem isDelimiter_iff {kind : TokenKind} :
    (kind.isOpening || kind.isClosing) = true ↔ isPlainKind kind = false := by
  cases kind <;> decide

theorem dueAfterAll_eq (due : List TokenKind) (ts : List Token) :
    dueAfterAll due ts = dueBehindAll due (delimiters ts) := by
  induction ts generalizing due with
  | nil => rfl
  | cons t ts ih =>
    rw [dueAfterAll, delimiters, List.map_cons, List.filter_cons]
    by_cases hplain : isPlainKind t.kind = true
    · have hnot : ¬(t.kind.isOpening || t.kind.isClosing) = true := by
        rw [isDelimiter_iff, hplain]
        decide
      rw [dueAfter_plain hplain, Option.bind_some, ih, if_neg hnot, delimiters]
    · rw [if_pos (isDelimiter_iff.2 (Bool.eq_false_iff.2 hplain)), dueBehindAll_cons]
      congr 1
      funext next
      exact ih next

/-! ## Both descriptions agree -/

theorem dueAfter_opening {opening close : TokenKind} (h : opening.closing? = some close)
    (due : List TokenKind) : dueAfter due opening = some (close :: due) := by
  unfold dueAfter
  rw [h]

theorem dueAfter_close {opening close : TokenKind} (h : opening.closing? = some close)
    (due : List TokenKind) : dueAfter (close :: due) close = some due :=
  dueAfter_append (dueAfter_closing h) due

theorem WellMatched.dueBehindAll {kinds : List TokenKind} (h : WellMatched kinds)
    (due : List TokenKind) : Grammar.dueBehindAll due kinds = some due := by
  induction h generalizing due with
  | nil => rfl
  | pair hclose _ _ ihInside ihRest =>
    rw [List.cons_append, dueBehindAll_cons, dueAfter_opening hclose, Option.bind_some,
      dueBehindAll_append, ihInside, Option.bind_some, dueBehindAll_cons, dueAfter_close hclose,
      Option.bind_some, ihRest]

/-- A delimiter opens something, or it closes what is due next. -/
theorem dueAfter_cases {due next : List TokenKind} {kind : TokenKind}
    (hkind : isPlainKind kind = false) (h : dueAfter due kind = some next) :
    (∃ close, kind.closing? = some close ∧ next = close :: due) ∨ due = kind :: next := by
  unfold dueAfter at h
  split at h
  · rename_i close hclose
    cases h
    exact .inl ⟨close, hclose, rfl⟩
  · rename_i hclose
    have hclosing : kind.isClosing = true := by
      simpa [isPlainKind, TokenKind.isOpening, hclose] using hkind
    rw [if_pos hclosing] at h
    split at h
    · cases h
    · split at h
      · rename_i heq
        cases h
        exact .inr (by rw [heq])
      · cases h

/-- Up to the delimiter that is due next, a word is well matched, and so it is if none is due. -/
theorem wellMatched_of_dueBehindAll (n : Nat) {kinds : List TokenKind} (hn : kinds.length ≤ n)
    (hkinds : ∀ kind ∈ kinds, isPlainKind kind = false) :
    (dueBehindAll [] kinds = some [] → WellMatched kinds) ∧
      ∀ close due, dueBehindAll (close :: due) kinds = some [] →
        ∃ inside rest, kinds = inside ++ close :: rest ∧ WellMatched inside ∧
          dueBehindAll due rest = some [] := by
  induction n generalizing kinds with
  | zero =>
    obtain rfl := List.length_eq_zero_iff.1 (Nat.le_zero.1 hn)
    exact ⟨fun _ => .nil, fun close due h => by cases h⟩
  | succ n ih =>
    cases kinds with
    | nil => exact ⟨fun _ => .nil, fun close due h => by cases h⟩
    | cons kind kinds =>
      have hkind := hkinds kind (List.mem_cons_self ..)
      have hrest : ∀ k ∈ kinds, isPlainKind k = false :=
        fun k hk => hkinds k (List.mem_cons_of_mem _ hk)
      have hlength : kinds.length ≤ n := Nat.le_of_succ_le_succ hn
      -- What an opening delimiter opens is closed in the rest, which is then shorter.
      have opened {close : TokenKind} {due : List TokenKind}
          (h : dueBehindAll (close :: due) kinds = some []) :
          ∃ inside rest, kinds = inside ++ close :: rest ∧ WellMatched inside ∧
            dueBehindAll due rest = some [] ∧ rest.length ≤ n ∧
            ∀ k ∈ rest, isPlainKind k = false := by
        obtain ⟨inside, rest, rfl, hinside, hdue⟩ := (ih hlength hrest).2 close due h
        refine ⟨inside, rest, rfl, hinside, hdue, ?_, fun k hk => hrest k (by simp [hk])⟩
        simp only [List.length_append, List.length_cons] at hlength
        omega
      constructor
      · intro h
        rw [dueBehindAll_cons] at h
        obtain ⟨next, hnext, hmore⟩ := Option.bind_eq_some_iff.1 h
        rcases dueAfter_cases hkind hnext with ⟨close, hclose, rfl⟩ | hdue
        · obtain ⟨inside, rest, rfl, hinside, hdue, hshort, hplain⟩ := opened hmore
          exact .pair hclose hinside ((ih hshort hplain).1 hdue)
        · cases hdue
      · intro close due h
        rw [dueBehindAll_cons] at h
        obtain ⟨next, hnext, hmore⟩ := Option.bind_eq_some_iff.1 h
        rcases dueAfter_cases hkind hnext with ⟨inner, hinner, rfl⟩ | hdue
        · obtain ⟨inside, rest, rfl, hinside, hdue, hshort, hplain⟩ := opened hmore
          obtain ⟨inside', rest', rfl, hinside', hdue'⟩ := (ih hshort hplain).2 close due hdue
          refine ⟨kind :: inside ++ inner :: inside', rest', by simp, ?_, hdue'⟩
          exact .pair hinner hinside hinside'
        · obtain ⟨rfl, rfl⟩ := List.cons.inj hdue
          exact ⟨[], kinds, rfl, .nil, hmore⟩

theorem isPlainKind_of_mem_delimiters {ts : List Token} {kind : TokenKind}
    (h : kind ∈ delimiters ts) : isPlainKind kind = false :=
  isDelimiter_iff.1 (List.mem_filter.1 h).2

/-- The stack of due delimiters and the nesting of delimiters accept the same tokens. -/
theorem matched_iff {ts : List Token} : Matched ts ↔ WellMatched (delimiters ts) := by
  rw [Matched, dueAfterAll_eq]
  constructor
  · exact (wellMatched_of_dueBehindAll _ (Nat.le_refl _)
      fun _ => isPlainKind_of_mem_delimiters).1
  · intro h
    exact h.dueBehindAll []

instance (ts : List Token) : Decidable (WellMatched (delimiters ts)) :=
  decidable_of_iff (dueAfterAll [] ts = some []) matched_iff

end PackageManifest.Proofs.Grammar
