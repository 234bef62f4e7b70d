import Mathlib.Data.Bool.AllAny
import Mathlib.Data.List.DropRight
import PackageManifest.Repository

/-!
# Spellings of a location

A location can be written in many ways that mean the same repository: with other capitals, with
`.git` or slashes behind it, between blanks. All spellings of one location have the same normal
form, which is the location in small letters.
-/

namespace PackageManifest.Repository

/-- A location without what a spelling of it may add. -/
structure IsBase (base : List Char) : Prop where
  ascii : ∀ c ∈ base, c.toNat < 128
  nonempty : base ≠ []
  head : ∀ c ∈ base.head?, ¬ Text.isBlank c
  last : ∀ c ∈ base.getLast?, ¬ Text.isBlank c
  noSlash : ¬ ['/'] <:+ base.map Char.toLower
  noGit : ¬ gitSuffix <:+ base.map Char.toLower

/-- A location as it may be written: letters in either case, then `.git` or not, then slashes, all
of it between blanks. -/
inductive Spells (base : List Char) : List Char → Prop
  | intro {before letters git after : List Char} (slashes : Nat) :
      (∀ c ∈ before, Text.isBlank c) → letters.map Char.toLower = base.map Char.toLower →
      (git = [] ∨ git.map Char.toLower = gitSuffix) → (∀ c ∈ after, Text.isBlank c) →
      Spells base (before ++ (letters ++ git ++ List.replicate slashes '/') ++ after)

/-! ## ASCII -/

/-- What is checked for the first 128 characters holds of every ASCII character. -/
theorem forall_ascii {P : Char → Prop} (h : ∀ n < 128, P (Char.ofNat n)) {c : Char}
    (hc : c.toNat < 128) : P c := by
  rw [← Char.ofNat_toNat c]
  exact h _ hc

theorem lowerChar_ascii {c : Char} (hc : c.toNat < 128) : Text.lowerChar c = [c.toLower] :=
  forall_ascii (P := fun c => Text.lowerChar c = [c.toLower]) (by decide) hc

theorem isBlank_toLower {c : Char} (hc : c.toNat < 128) :
    Text.isBlank c.toLower = Text.isBlank c :=
  forall_ascii (P := fun c => Text.isBlank c.toLower = Text.isBlank c) (by decide) hc

theorem toLower_lt {c : Char} (hc : c.toNat < 128) : c.toLower.toNat < 128 :=
  forall_ascii (P := fun c => c.toLower.toNat < 128) (by decide) hc

theorem lt_of_toLower_lt {c : Char} (hc : c.toLower.toNat < 128) : c.toNat < 128 := by
  unfold Char.toLower at hc
  split at hc
  next hupper => exact Nat.lt_of_le_of_lt (UInt32.le_iff_toNat_le.1 hupper.2) (by decide)
  next => exact hc

/-- Whether an ASCII character is a blank does not change with its case. -/
theorem isBlank_eq_of_toLower_eq {c d : Char} (h : c.toLower = d.toLower) (hd : d.toNat < 128) :
    Text.isBlank c = Text.isBlank d := by
  have hc : c.toNat < 128 := lt_of_toLower_lt (h ▸ toLower_lt hd)
  rw [← isBlank_toLower hc, ← isBlank_toLower hd, h]

theorem ascii_of_map_toLower {cs base : List Char} (h : cs.map Char.toLower = base.map Char.toLower)
    (hbase : ∀ c ∈ base, c.toNat < 128) : ∀ c ∈ cs, c.toNat < 128 := by
  intro c hc
  have hmem : c.toLower ∈ base.map Char.toLower := h ▸ List.mem_map_of_mem hc
  obtain ⟨d, hd, hsame⟩ := List.mem_map.1 hmem
  exact lt_of_toLower_lt (hsame ▸ toLower_lt (hbase d hd))

theorem lowerCaseFrom_ascii (before : List Char) {cs : List Char} (h : ∀ c ∈ cs, c.toNat < 128) :
    Text.lowerCaseFrom before cs = cs.map Char.toLower := by
  induction cs generalizing before with
  | nil => rfl
  | cons c cs ih =>
    obtain ⟨hc, hcs⟩ := List.forall_mem_cons.1 h
    have hsigma : (c == 'Σ') = false := by
      rw [beq_eq_false_iff_ne]
      rintro rfl
      exact absurd hc (by decide)
    rw [Text.lowerCaseFrom, hsigma, lowerChar_ascii hc, ih _ hcs]
    rfl

theorem lowerCase_ascii {cs : List Char} (h : ∀ c ∈ cs, c.toNat < 128) :
    Text.lowerCase cs = cs.map Char.toLower :=
  lowerCaseFrom_ascii [] h

/-! ## Cutting off -/

theorem dropEndWhile_append {p : Char → Bool} {cs tail : List Char} (htail : ∀ c ∈ tail, p c)
    (hlast : ∀ c ∈ cs.getLast?, ¬ p c) : Text.dropEndWhile p (cs ++ tail) = cs := by
  rw [Text.dropEndWhile, List.reverse_append,
    List.dropWhile_append_of_pos fun c hc => htail c (List.mem_reverse.1 hc)]
  exact List.rdropWhile_eq_self_iff.2 fun hcs => hlast _ (List.getLast?_eq_getLast_of_ne_nil hcs)

theorem trim_between {before cs after : List Char} (hbefore : ∀ c ∈ before, Text.isBlank c)
    (hafter : ∀ c ∈ after, Text.isBlank c) (hnonempty : cs ≠ [])
    (hhead : ∀ c ∈ cs.head?, ¬ Text.isBlank c) (hlast : ∀ c ∈ cs.getLast?, ¬ Text.isBlank c) :
    Text.trim (before ++ cs ++ after) = cs := by
  obtain ⟨c, cs, rfl⟩ := List.exists_cons_of_ne_nil hnonempty
  have hstart : (before ++ (c :: cs) ++ after).dropWhile Text.isBlank = c :: cs ++ after := by
    rw [List.append_assoc, List.dropWhile_append_of_pos hbefore, List.cons_append,
      List.dropWhile_cons_of_neg (hhead c rfl)]
  rw [Text.trim, hstart, dropEndWhile_append hafter hlast]

theorem stripGit_append (cs : List Char) : stripGit (cs ++ gitSuffix) = cs := by
  have hcut : Text.after? gitSuffix.reverse (cs ++ gitSuffix).reverse = some cs.reverse := by
    rw [Text.after?_eq_some_iff, List.reverse_append]
  rw [stripGit, Text.before?, hcut, Option.map_some, Option.getD_some, List.reverse_reverse]

theorem stripGit_eq_self {cs : List Char} (h : ¬ gitSuffix <:+ cs) : stripGit cs = cs := by
  cases hcut : Text.after? gitSuffix.reverse cs.reverse with
  | none => rw [stripGit, Text.before?, hcut]; rfl
  | some rest =>
    rw [Text.after?_eq_some_iff] at hcut
    exact absurd ⟨rest.reverse, by rw [← List.reverse_inj, hcut]; simp⟩ h

theorem forall_getLast?_append {P : Char → Prop} {cs tail : List Char}
    (hcs : ∀ c ∈ cs.getLast?, P c) (htail : ∀ c ∈ tail, P c) :
    ∀ c ∈ (cs ++ tail).getLast?, P c := by
  intro c hc
  rw [List.getLast?_append, Option.mem_def, Option.or_eq_some_iff] at hc
  rcases hc with hc | ⟨-, hc⟩
  · exact htail c (List.mem_of_getLast? hc)
  · exact hcs c hc

/-! ## The normal form -/

theorem ascii_not_isBlank_of_git {git : List Char}
    (h : git = [] ∨ git.map Char.toLower = gitSuffix) :
    ∀ c ∈ git, c.toNat < 128 ∧ ¬ Text.isBlank c := by
  intro c hc
  rcases h with rfl | h
  · cases hc
  · have hmem : c.toLower ∈ gitSuffix := h ▸ List.mem_map_of_mem hc
    have hletter : ∀ d ∈ gitSuffix, d.toNat < 128 ∧ ¬ Text.isBlank d :=
      List.all_iff_forall_prop.1 (by decide)
    have hascii : c.toNat < 128 := lt_of_toLower_lt (hletter _ hmem).1
    exact ⟨hascii, isBlank_toLower hascii ▸ (hletter _ hmem).2⟩

theorem not_isBlank_of_map_toLower {x y : Option Char}
    (h : x.map Char.toLower = y.map Char.toLower) (hascii : ∀ d ∈ y, d.toNat < 128)
    (hy : ∀ d ∈ y, ¬ Text.isBlank d) : ∀ c ∈ x, ¬ Text.isBlank c := by
  rintro c rfl
  obtain ⟨d, rfl, hsame⟩ := Option.map_eq_some_iff.1 h.symm
  rw [isBlank_eq_of_toLower_eq hsame.symm (hascii d rfl)]
  exact hy d rfl

/-- Blanks around a spelling are cut off, and nothing else is. -/
theorem trim_spelling {base before letters git slashes after : List Char} (hbase : IsBase base)
    (hbefore : ∀ c ∈ before, Text.isBlank c)
    (hletters : letters.map Char.toLower = base.map Char.toLower)
    (hgit : ∀ c ∈ git, ¬ Text.isBlank c) (hslashes : ∀ c ∈ slashes, ¬ Text.isBlank c)
    (hafter : ∀ c ∈ after, Text.isBlank c) :
    Text.trim (before ++ (letters ++ git ++ slashes) ++ after) = letters ++ git ++ slashes := by
  have hnonempty : letters ≠ [] := by
    rintro rfl
    exact hbase.nonempty (List.map_eq_nil_iff.1 hletters.symm)
  have hhead : ∀ c ∈ letters.head?, ¬ Text.isBlank c :=
    not_isBlank_of_map_toLower (by rw [← List.head?_map, hletters, List.head?_map])
      (fun d hd => hbase.ascii d (List.mem_of_mem_head? hd)) hbase.head
  have hlast : ∀ c ∈ letters.getLast?, ¬ Text.isBlank c :=
    not_isBlank_of_map_toLower (by rw [← List.getLast?_map, hletters, List.getLast?_map])
      (fun d hd => hbase.ascii d (List.mem_of_getLast? hd)) hbase.last
  refine trim_between hbefore hafter (by simp [hnonempty]) ?_
    (forall_getLast?_append (forall_getLast?_append hlast hgit) hslashes)
  rw [List.append_assoc, List.head?_append_of_ne_nil _ hnonempty]
  exact hhead

theorem stripSlashes_append {cs : List Char} (slashes : Nat) (h : ¬ ['/'] <:+ cs) :
    stripSlashes (cs ++ List.replicate slashes '/') = cs := by
  refine dropEndWhile_append (by simp) fun c hc => ?_
  obtain ⟨front, rfl⟩ := List.getLast?_eq_some_iff.1 hc
  rw [beq_iff_eq]
  rintro rfl
  exact h (List.suffix_append front ['/'])

theorem not_slash_suffix_git (cs : List Char) : ¬ ['/'] <:+ cs ++ gitSuffix := by
  rintro ⟨front, h⟩
  have hlast := congrArg List.getLast? h
  simp [gitSuffix] at hlast

/-- All spellings of a location have one normal form. -/
theorem normalForm_of_spells {base location : List Char} (hbase : IsBase base)
    (h : Spells base location) : normalForm location = base.map Char.toLower := by
  obtain @⟨before, letters, git, after, slashes, hbefore, hletters, hgit, hafter⟩ := h
  have hgitChar := ascii_not_isBlank_of_git hgit
  have hslash : ∀ c ∈ List.replicate slashes '/', c.toNat < 128 ∧ ¬ Text.isBlank c := by
    intro c hc
    rw [List.eq_of_mem_replicate hc]
    decide
  have hascii : ∀ c ∈ letters ++ git ++ List.replicate slashes '/', c.toNat < 128 := by
    intro c hc
    rw [List.append_assoc, List.mem_append, List.mem_append] at hc
    rcases hc with hc | hc | hc
    · exact ascii_of_map_toLower hletters hbase.ascii c hc
    · exact (hgitChar c hc).1
    · exact (hslash c hc).1
  calc normalForm (before ++ (letters ++ git ++ List.replicate slashes '/') ++ after)
      = stripGit (stripSlashes
          (Text.lowerCase (letters ++ git ++ List.replicate slashes '/'))) := by
        rw [normalForm, trim_spelling hbase hbefore hletters (fun c hc => (hgitChar c hc).2)
          (fun c hc => (hslash c hc).2) hafter]
    _ = stripGit (stripSlashes (base.map Char.toLower ++ git.map Char.toLower ++
          List.replicate slashes '/')) := by
        rw [lowerCase_ascii hascii, List.map_append, List.map_append, List.map_replicate, hletters]
        rfl
    _ = base.map Char.toLower := by
        rcases hgit with rfl | hgit
        · rw [List.map_nil, List.append_nil, stripSlashes_append slashes hbase.noSlash,
            stripGit_eq_self hbase.noGit]
        · rw [hgit, stripSlashes_append slashes (not_slash_suffix_git _), stripGit_append]

end PackageManifest.Repository
