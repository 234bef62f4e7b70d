import PackageManifest.Dependency
import PackageManifest.Proofs.Locations

/-!
# The name of a location

A package that is given no name is called after the last part of its location. Two spellings of one
location give it one name up to case, unless just one of them ends in a `.git` written with
capitals: the normal form is cut in small letters and loses that ending, the name is cut as it is
written and keeps it.

A package may be given as `owner/name`. That stands for a repository of the usual host, unless the
owner itself begins like an address.
-/

namespace PackageManifest.Repository

/-! ## Case -/

theorem toLower_eq_iff {d : Char} (hd : d.toNat < 128)
    (hself : ∀ n < 128, (Char.ofNat n).toLower = d ↔ Char.ofNat n = d) (c : Char) :
    c.toLower = d ↔ c = d := by
  by_cases hc : c.toNat < 128
  · exact forall_ascii (P := fun c => c.toLower = d ↔ c = d) hself hc
  · refine iff_of_false (fun h => hc (lt_of_toLower_lt (h ▸ hd))) ?_
    rintro rfl
    exact hc hd

theorem toLower_eq_slash_iff (c : Char) : c.toLower = '/' ↔ c = '/' :=
  toLower_eq_iff (by decide) (by decide) c

theorem toLower_eq_colon_iff (c : Char) : c.toLower = ':' ↔ c = ':' :=
  toLower_eq_iff (by decide) (by decide) c

theorem stripSlashes_map_toLower (cs : List Char) :
    stripSlashes (cs.map Char.toLower) = (stripSlashes cs).map Char.toLower := by
  have hslash : (fun c : Char => c == '/') ∘ Char.toLower = fun c => c == '/' := by
    funext c
    exact Bool.eq_iff_iff.2 (by simp [toLower_eq_slash_iff])
  simp only [stripSlashes, Text.dropEndWhile, ← List.map_reverse, List.dropWhile_map, hslash]

theorem lastPart_map_toLower (cs : List Char) :
    lastPart (cs.map Char.toLower) = (lastPart cs).map Char.toLower := by
  have hpart : (fun c : Char => c != '/' && c != ':') ∘ Char.toLower =
      fun c => c != '/' && c != ':' := by
    funext c
    exact Bool.eq_iff_iff.2 (by simp [toLower_eq_slash_iff, toLower_eq_colon_iff])
  simp only [lastPart, ← List.map_reverse, List.takeWhile_map, hpart]

/-! ## The last part and the ending -/

theorem lastPart_suffix (cs : List Char) : lastPart cs <:+ cs := by
  rw [← List.reverse_prefix, lastPart, List.reverse_reverse]
  exact List.takeWhile_prefix _

theorem lastPart_append (cs : List Char) {tail : List Char}
    (htail : ∀ c ∈ tail, c ≠ '/' ∧ c ≠ ':') : lastPart (cs ++ tail) = lastPart cs ++ tail := by
  have hpart : ∀ c ∈ tail.reverse, (c != '/' && c != ':') = true := by
    simpa [List.mem_reverse] using htail
  rw [lastPart, List.reverse_append, List.takeWhile_append_of_pos hpart, List.reverse_append,
    List.reverse_reverse, lastPart]

theorem lastPart_slash (front : List Char) {name : List Char}
    (hname : ∀ c ∈ name, c ≠ '/' ∧ c ≠ ':') : lastPart (front ++ '/' :: name) = name := by
  rw [List.append_cons, lastPart_append _ hname]
  simp [lastPart]

theorem lastPart_append_git (cs : List Char) :
    lastPart (cs ++ gitSuffix) = lastPart cs ++ gitSuffix :=
  lastPart_append cs (List.all_iff_forall_prop.1 (by decide))

/-- It is the same to cut off `.git` first and to take the last part first. -/
theorem stripGit_lastPart (cs : List Char) : stripGit (lastPart cs) = lastPart (stripGit cs) := by
  by_cases hgit : gitSuffix <:+ cs
  · obtain ⟨front, rfl⟩ := hgit
    rw [lastPart_append_git, stripGit_append, stripGit_append]
  · rw [stripGit_eq_self hgit, stripGit_eq_self fun h => hgit (h.trans (lastPart_suffix cs))]

/-! ## Names and normal forms -/

def core (location : List Char) : List Char := stripSlashes (Text.trim location)

/-- The location ends in `.git`, and some of those letters are capitals. -/
def KeepsGit (location : List Char) : Prop :=
  gitSuffix <:+ (core location).map Char.toLower ∧ ¬ gitSuffix <:+ core location

instance (location : List Char) : Decidable (KeepsGit location) :=
  inferInstanceAs (Decidable (_ ∧ _))

theorem mem_of_mem_trim {c : Char} {cs : List Char} (h : c ∈ Text.trim cs) : c ∈ cs := by
  rw [Text.trim, Text.dropEndWhile, List.mem_reverse] at h
  have hstart := List.mem_reverse.1 ((List.dropWhile_sublist _).subset h)
  exact (List.dropWhile_sublist _).subset hstart

theorem normalForm_ascii {location : List Char} (h : ∀ c ∈ location, c.toNat < 128) :
    normalForm location = stripGit ((core location).map Char.toLower) := by
  rw [normalForm, lowerCase_ascii fun c hc => h c (mem_of_mem_trim hc), stripSlashes_map_toLower,
    core]

theorem nameOf_eq (location : List Char) :
    nameOf location = lastPart (stripGit (core location)) := by
  rw [nameOf, stripGit_lastPart, core]

/-- In small letters, the name is the last part of the normal form and the `.git` that was kept. -/
theorem map_toLower_nameOf {location : List Char} (h : ∀ c ∈ location, c.toNat < 128) :
    (nameOf location).map Char.toLower =
      lastPart (normalForm location) ++ if KeepsGit location then gitSuffix else [] := by
  rw [nameOf_eq, ← lastPart_map_toLower, normalForm_ascii h]
  by_cases hgit : gitSuffix <:+ core location
  · have hlower : (core location).map Char.toLower =
        (stripGit (core location)).map Char.toLower ++ gitSuffix := by
      obtain ⟨front, hfront⟩ := hgit
      rw [← hfront, stripGit_append, List.map_append]
      rfl
    rw [hlower, stripGit_append, if_neg fun hkeeps => hkeeps.2 hgit, List.append_nil]
  · rw [stripGit_eq_self hgit]
    by_cases hcapital : gitSuffix <:+ (core location).map Char.toLower
    · rw [if_pos ⟨hcapital, hgit⟩]
      obtain ⟨front, hfront⟩ := hcapital
      rw [← hfront, stripGit_append, lastPart_append_git]
    · rw [stripGit_eq_self hcapital, if_neg fun hkeeps => hcapital hkeeps.1, List.append_nil]

/-- Two spellings of one location give one name up to case exactly if both keep a `.git` that is
written with capitals, or neither does. -/
theorem map_toLower_nameOf_eq_iff {a b : List Char} (ha : ∀ c ∈ a, c.toNat < 128)
    (hb : ∀ c ∈ b, c.toNat < 128) (hsame : normalForm a = normalForm b) :
    (nameOf a).map Char.toLower = (nameOf b).map Char.toLower ↔ (KeepsGit a ↔ KeepsGit b) := by
  rw [map_toLower_nameOf ha, map_toLower_nameOf hb, hsame, List.append_cancel_left_eq]
  by_cases hkeepsA : KeepsGit a <;> by_cases hkeepsB : KeepsGit b <;>
    simp [hkeepsA, hkeepsB, gitSuffix]

/-- A spelling with capitals, `.git`, a slash and blanks, and a plain one. -/
theorem map_toLower_nameOf_eq_iff_plain :
    let a := " https://GitHub.com/x/Files.git/ ".toList
    let b := "https://github.com/x/files".toList
    (nameOf a).map Char.toLower = (nameOf b).map Char.toLower ∧ nameOf a ≠ nameOf b :=
  ⟨(map_toLower_nameOf_eq_iff (List.all_iff_forall_prop.1 (by decide))
    (List.all_iff_forall_prop.1 (by decide)) (by decide)).2 (by decide), by decide⟩

/-- With `.GIT` behind it, a location keeps its normal form and gets another name. -/
theorem nameOf_keeps_git :
    normalForm "https://github.com/x/Files.GIT".toList =
      normalForm "https://github.com/x/Files".toList ∧
    (nameOf "https://github.com/x/Files.GIT".toList).map Char.toLower ≠
      (nameOf "https://github.com/x/Files".toList).map Char.toLower := by
  decide

/-! ## Owner and name -/

def isNameChar (c : Char) : Bool := c.isAlphanum || c == '-' || c == '_' || c == '.'

/-- An owner and a name of a repository, the owner without a dot and the name without `.git`. -/
structure IsShorthand (owner name : List Char) : Prop where
  owner_ne : owner ≠ []
  name_ne : name ≠ []
  owner_chars : ∀ c ∈ owner, isNameChar c ∧ c ≠ '.'
  name_chars : ∀ c ∈ name, isNameChar c
  noGit : ¬ gitSuffix <:+ name

def shorthand (owner name : List Char) : List Char := owner ++ '/' :: name

def host : List Char := "https://github.com/".toList

def hosted (owner name : List Char) : List Char := host ++ shorthand owner name

theorem lt_of_isAlphanum {c : Char} (h : c.isAlphanum = true) : c.toNat < 128 := by
  have hupper (h : c.isUpper = true) : c.toNat ≤ 'Z'.toNat :=
    UInt32.le_iff_toNat_le.1 (of_decide_eq_true h).2
  have hlower (h : c.isLower = true) : c.toNat ≤ 'z'.toNat :=
    UInt32.le_iff_toNat_le.1 (of_decide_eq_true (Bool.and_eq_true_iff.1 h).2)
  have hdigit (h : c.isDigit = true) : c.toNat ≤ '9'.toNat :=
    UInt32.le_iff_toNat_le.1 (of_decide_eq_true (Bool.and_eq_true_iff.1 h).2)
  rcases Bool.or_eq_true_iff.1 h with h | h
  · rcases Bool.or_eq_true_iff.1 h with h | h
    · exact Nat.lt_of_le_of_lt (hupper h) (by decide)
    · exact Nat.lt_of_le_of_lt (hlower h) (by decide)
  · exact Nat.lt_of_le_of_lt (hdigit h) (by decide)

theorem lt_of_isNameChar {c : Char} (h : isNameChar c) : c.toNat < 128 := by
  simp only [isNameChar, Bool.or_eq_true, beq_iff_eq] at h
  rcases h with ((h | rfl) | rfl) | rfl
  · exact lt_of_isAlphanum h
  all_goals decide

theorem not_separator_of_isNameChar {c : Char} (h : isNameChar c) :
    (c ≠ '/' ∧ c ≠ ':') ∧ c ≠ '@' ∧ Text.isBlank c = false :=
  forall_ascii
    (P := fun c => isNameChar c → (c ≠ '/' ∧ c ≠ ':') ∧ c ≠ '@' ∧ Text.isBlank c = false)
    (by decide) (lt_of_isNameChar h) h

theorem startsWith_iff {start cs : List Char} :
    Text.startsWith start cs = true ↔ start <+: cs := by
  rw [Text.startsWith, Option.isSome_iff_exists]
  exact exists_congr fun rest => by rw [Text.after?_eq_some_iff, eq_comm]

/-- What does not hold a character begins a text behind which it stands if it begins that text. -/
theorem prefix_append_cons_iff {α : Type*} {p a b : List α} {x : α} (h : x ∉ p) :
    p <+: a ++ x :: b ↔ p <+: a := by
  refine ⟨fun hp => ?_, fun hp => hp.trans (List.prefix_append a (x :: b))⟩
  rcases List.prefix_or_prefix_of_prefix hp (List.prefix_append a (x :: b)) with hp' | hp'
  · exact hp'
  · obtain ⟨rest, rfl⟩ := hp'
    cases rest with
    | nil => simp
    | cons y rest =>
      have hx := (List.cons_prefix_cons.1 ((List.prefix_append_right_inj a).1 hp)).1
      exact absurd (by simp [hx]) h

theorem suffix_append_cons_iff {α : Type*} {p a b : List α} {x : α} (h : x ∉ p) :
    p <:+ a ++ x :: b ↔ p <:+ b := by
  rw [← List.reverse_prefix, List.reverse_append, List.reverse_cons, List.append_assoc,
    List.singleton_append, prefix_append_cons_iff (by simpa using h), List.reverse_prefix]

theorem length_stripGit_le (cs : List Char) : (stripGit cs).length ≤ cs.length := by
  by_cases hgit : gitSuffix <:+ cs
  · obtain ⟨front, rfl⟩ := hgit
    rw [stripGit_append, List.length_append]
    exact Nat.le_add_right _ _
  · rw [stripGit_eq_self hgit]

theorem stripGit_eq_self_iff {cs : List Char} : stripGit cs = cs ↔ ¬ gitSuffix <:+ cs := by
  refine ⟨?_, stripGit_eq_self⟩
  rintro hself ⟨front, rfl⟩
  rw [stripGit_append] at hself
  exact absurd (List.self_eq_append_right.1 hself) (by decide)

theorem trim_eq_self {cs : List Char} (hne : cs ≠ []) (h : ∀ c ∈ cs, ¬ Text.isBlank c) :
    Text.trim cs = cs := by
  have hnone : ∀ c ∈ ([] : List Char), Text.isBlank c := by simp
  simpa using trim_between hnone hnone hne
    (fun c hc => h c (List.mem_of_mem_head? hc)) (fun c hc => h c (List.mem_of_getLast? hc))

section Shorthand

variable {owner name front : List Char}

theorem core_slash_name (hfront : ∀ c ∈ front, ¬ Text.isBlank c) (hne : name ≠ [])
    (hname : ∀ c ∈ name, isNameChar c) : core (front ++ '/' :: name) = front ++ '/' :: name := by
  have hblank : ∀ c ∈ front ++ '/' :: name, ¬ Text.isBlank c := by
    intro c hc
    rcases List.mem_append.1 hc with hc | hc
    · exact hfront c hc
    · rcases List.mem_cons.1 hc with rfl | hc
      · decide
      · simp [(not_separator_of_isNameChar (hname c hc)).2.2]
  have hend : ¬ ['/'] <:+ front ++ '/' :: name := by
    intro hsuffix
    have hlast : ['/'] <:+ name := List.suffix_of_suffix_length_le hsuffix
      ((List.suffix_cons '/' name).trans (List.suffix_append front _))
      (List.length_pos_of_ne_nil hne)
    have hmem : '/' ∈ name := hlast.subset (List.mem_singleton_self '/')
    exact (not_separator_of_isNameChar (hname _ hmem)).1.1 rfl
  rw [core, trim_eq_self (by simp) hblank]
  simpa using stripSlashes_append 0 hend

theorem normalForm_slash_name (hfront : ∀ c ∈ front, c.toNat < 128 ∧ ¬ Text.isBlank c)
    (hne : name ≠ []) (hname : ∀ c ∈ name, isNameChar c) :
    normalForm (front ++ '/' :: name) = stripGit ((front ++ '/' :: name).map Char.toLower) := by
  have hascii : ∀ c ∈ front ++ '/' :: name, c.toNat < 128 := by
    simp only [List.forall_mem_append, List.forall_mem_cons]
    exact ⟨fun c hc => (hfront c hc).1, by decide, fun c hc => lt_of_isNameChar (hname c hc)⟩
  rw [normalForm_ascii hascii, core_slash_name (fun c hc => (hfront c hc).2) hne hname]

theorem hosted_eq (owner name : List Char) : hosted owner name = host ++ owner ++ '/' :: name := by
  rw [hosted, shorthand, List.append_assoc]

variable (h : IsShorthand owner name)

include h

theorem IsShorthand.char :
    ∀ c ∈ shorthand owner name, c.toNat < 128 ∧ c ≠ '@' ∧ ¬ Text.isBlank c := by
  have hchar {c : Char} (hc : isNameChar c) : c.toNat < 128 ∧ c ≠ '@' ∧ ¬ Text.isBlank c := by
    have hother := (not_separator_of_isNameChar hc).2
    exact ⟨lt_of_isNameChar hc, hother.1, by simp [hother.2]⟩
  simp only [shorthand, List.forall_mem_append, List.forall_mem_cons]
  exact ⟨fun c hc => hchar (h.owner_chars c hc).1, by decide, fun c hc => hchar (h.name_chars c hc)⟩

theorem IsShorthand.owner_char : ∀ c ∈ owner, c.toNat < 128 ∧ ¬ Text.isBlank c :=
  fun c hc => (h.char c (List.mem_append_left _ hc)).imp_right And.right

theorem IsShorthand.host_char : ∀ c ∈ host ++ owner, c.toNat < 128 ∧ ¬ Text.isBlank c :=
  List.forall_mem_append.2 ⟨List.all_iff_forall_prop.1 (by decide), h.owner_char⟩

theorem nameOf_slash_name (hfront : ∀ c ∈ front, ¬ Text.isBlank c) :
    nameOf (front ++ '/' :: name) = name := by
  have hpart : ∀ c ∈ name, c ≠ '/' ∧ c ≠ ':' :=
    fun c hc => (not_separator_of_isNameChar (h.name_chars c hc)).1
  rw [nameOf_eq, core_slash_name hfront h.name_ne h.name_chars, ← stripGit_lastPart,
    lastPart_slash _ hpart, stripGit_eq_self h.noGit]

/-- Only an owner that begins like an address keeps the host away. -/
theorem locationOf_shorthand :
    locationOf (shorthand owner name) =
      if "http".toList <+: owner then shorthand owner name else hosted owner name := by
  have htrim : Text.trim (shorthand owner name) = shorthand owner name :=
    trim_eq_self (by simp [shorthand]) fun c hc => (h.char c hc).2.2
  have hhttp : Text.startsWith "http".toList (shorthand owner name) = true ↔
      "http".toList <+: owner := by
    rw [startsWith_iff, shorthand, prefix_append_cons_iff (by decide)]
  have hgit : ¬ Text.startsWith "git@".toList (shorthand owner name) = true := by
    rw [startsWith_iff]
    exact fun hstart => (h.char '@' (hstart.subset (by decide))).2.1 rfl
  rw [locationOf, htrim]
  by_cases howner : "http".toList <+: owner
  · rw [if_pos howner, hhttp.2 howner]
    rfl
  · rw [if_neg howner, Bool.eq_false_iff.2 (mt hhttp.1 howner), Bool.eq_false_iff.2 hgit]
    rfl

theorem normalForm_shorthand :
    normalForm (shorthand owner name) = stripGit ((shorthand owner name).map Char.toLower) :=
  normalForm_slash_name h.owner_char h.name_ne h.name_chars

theorem normalForm_hosted :
    normalForm (hosted owner name) = stripGit ((hosted owner name).map Char.toLower) := by
  rw [hosted_eq]
  exact normalForm_slash_name h.host_char h.name_ne h.name_chars

theorem normalForm_hosted_git :
    normalForm (hosted owner name ++ gitSuffix) = (hosted owner name).map Char.toLower := by
  have hname : ∀ c ∈ name ++ gitSuffix, isNameChar c :=
    List.forall_mem_append.2 ⟨h.name_chars, List.all_iff_forall_prop.1 (by decide)⟩
  rw [hosted_eq, List.append_assoc, List.cons_append,
    normalForm_slash_name h.host_char (by simp [h.name_ne]) hname, ← List.cons_append,
    ← List.append_assoc, List.map_append]
  exact stripGit_append _

/-- A shorthand is taken for the repository of the usual host exactly if its owner does not begin
like an address and its name does not end in `.git` in any case. -/
theorem normalForm_locationOf_shorthand :
    normalForm (locationOf (shorthand owner name)) = normalForm (hosted owner name ++ gitSuffix) ↔
      ¬ "http".toList <+: owner ∧ ¬ gitSuffix <:+ name.map Char.toLower := by
  rw [locationOf_shorthand h, normalForm_hosted_git h]
  by_cases howner : "http".toList <+: owner
  · refine iff_of_false (fun hsame => ?_) fun hneither => hneither.1 howner
    have hlength := length_stripGit_le ((shorthand owner name).map Char.toLower)
    rw [if_pos howner, normalForm_shorthand h] at hsame
    rw [hsame, hosted, List.length_map, List.length_map, List.length_append] at hlength
    have hhost : 0 < host.length := by decide
    omega
  · have hgit : gitSuffix <:+ (hosted owner name).map Char.toLower ↔
        gitSuffix <:+ name.map Char.toLower := by
      rw [hosted_eq, List.map_append, List.map_cons]
      exact suffix_append_cons_iff (by decide)
    rw [if_neg howner, normalForm_hosted h, stripGit_eq_self_iff, hgit]
    exact (and_iff_right howner).symm

end Shorthand

/-- A package given as `owner/name` is called `name`. It lives on the usual host exactly if its
owner does not begin like an address; else what was given is the location. It is taken for the
repository of that host, as written with `.git`, if moreover its name has no `.git` in capitals. -/
theorem ofPackage_shorthand {owner name : List Char} (h : IsShorthand owner name)
    (requirement : Requirement) :
    let d := Dependency.ofPackage (String.ofList (shorthand owner name)) requirement
    d.identifier = String.ofList name ∧ d.requirement = requirement ∧ d.products = [] ∧
    (d.url = String.ofList (hosted owner name) ↔ ¬ "http".toList <+: owner) ∧
    ("http".toList <+: owner → d.url = String.ofList (shorthand owner name)) ∧
    (normalForm d.url.toList = normalForm (hosted owner name ++ gitSuffix) ↔
      ¬ "http".toList <+: owner ∧ ¬ gitSuffix <:+ name.map Char.toLower) := by
  have hne : shorthand owner name ≠ hosted owner name := fun hsame =>
    absurd (List.self_eq_append_left.1 hsame) (by decide)
  simp only [Dependency.ofPackage, String.toList_ofList, String.ofList_inj]
  refine ⟨?_, trivial, trivial, ?_, ?_, normalForm_locationOf_shorthand h⟩
  · rw [locationOf_shorthand h]
    split
    · exact nameOf_slash_name h fun c hc => (h.owner_char c hc).2
    · rw [hosted_eq]
      exact nameOf_slash_name h fun c hc => (h.host_char c hc).2
  · rw [locationOf_shorthand h]
    split
    next howner => exact iff_of_false hne (not_not_intro howner)
    next howner => exact iff_of_true rfl howner
  · intro howner
    rw [locationOf_shorthand h, if_pos howner]

/-- An owner and a name of the usual kind. -/
theorem ofPackage_shorthand_plain :
    let d := Dependency.ofPackage "apple/swift-log" (.branch "main")
    d.identifier = "swift-log" ∧ d.url = "https://github.com/apple/swift-log" ∧
    normalForm d.url.toList = normalForm "https://github.com/apple/swift-log.git".toList := by
  have hshorthand : IsShorthand "apple".toList "swift-log".toList :=
    ⟨by decide, by decide, List.all_iff_forall_prop.1 (by decide),
      List.all_iff_forall_prop.1 (by decide), by decide⟩
  obtain ⟨hname, -, -, hurl, -, hform⟩ := ofPackage_shorthand hshorthand (.branch "main")
  exact ⟨hname, hurl.2 (by decide), hform.2 (by decide)⟩

/-- An owner that begins like an address: the shorthand itself is the location. -/
theorem ofPackage_keeps_shorthand :
    IsShorthand "http-party".toList "http-server".toList ∧
    let d := Dependency.ofPackage "http-party/http-server" (.branch "main")
    d.url = "http-party/http-server" ∧
    normalForm d.url.toList ≠
      normalForm "https://github.com/http-party/http-server.git".toList := by
  exact ⟨⟨by decide, by decide, List.all_iff_forall_prop.1 (by decide),
    List.all_iff_forall_prop.1 (by decide), by decide⟩, by decide, by decide⟩

end PackageManifest.Repository
