import Mathlib.Data.List.Induction
import PackageManifest.Package.Info
import PackageManifest.Proofs.Versions.Order

/-!
# The listing of release tags and the latest one

The listing from new to old is a stable sort of the reversed tags, and the latest tag is a maximum
over them. The listing is described by what it holds and in which order (`Listing`), and the first
tag in any such listing whose version has a given property is the last of the greatest ones among
the tags. So both agree on which tag is the latest.
-/

namespace PackageManifest.Package.Info

open Std

def taggedBy (q : Version → Bool) (tag : String) : Bool := (Version.ofTag? tag).any q

def isPlainTag (tag : String) : Bool := (Version.ofTag? tag).isNone

def ranksWith (v w : Version) : Bool := Version.compare v w == .eq

/-- What a listing of tags from new to old is. -/
structure Listing (tags listing : List String) : Prop where
  perm : listing.Perm tags
  versions_first : ∃ versions others, listing = versions ++ others ∧
    (∀ tag ∈ versions, ¬ isPlainTag tag) ∧ ∀ tag ∈ others, isPlainTag tag
  descending : (listing.filterMap Version.ofTag?).Pairwise fun v w => (Version.compare v w).isGE
  /-- Tags with versions that rank alike stand in reverse order. -/
  equal (v : Version) : listing.filter (taggedBy (ranksWith v)) =
    (tags.filter (taggedBy (ranksWith v))).reverse
  /-- So do tags without version. -/
  others : listing.filter isPlainTag = (tags.filter isPlainTag).reverse

@[simp]
theorem ranksWith_self (v : Version) : ranksWith v v := by
  simp [ranksWith, Version.compare_self]

theorem ranksWith_iff {v w : Version} : ranksWith v w ↔ v = w := by
  rw [ranksWith, beq_iff_eq, LawfulEqCmp.compare_eq_iff_eq]

theorem taggedBy_iff {q : Version → Bool} {tag : String} :
    taggedBy q tag ↔ ∃ v, Version.ofTag? tag = some v ∧ q v := by
  simp [taggedBy, Option.any_eq_true]

/-! ## The order of tags -/

theorem notOlder_iff (a b : String) :
    notOlder a b ↔ ∀ w, Version.ofTag? b = some w →
      ∃ v, Version.ofTag? a = some v ∧ (Version.compare v w).isGE := by
  rw [notOlder]
  cases Version.ofTag? a <;> cases Version.ofTag? b <;>
    simp [Ordering.isGE_iff_ne_lt]

theorem notOlder_trans (a b c : String) (hab : notOlder a b) (hbc : notOlder b c) :
    notOlder a c := by
  rw [notOlder_iff] at *
  intro u hu
  obtain ⟨w, hw, hwu⟩ := hbc u hu
  obtain ⟨v, hv, hvw⟩ := hab w hw
  rw [OrientedCmp.isGE_iff_isLE] at hvw hwu
  exact ⟨v, hv, OrientedCmp.isGE_iff_isLE.2 (TransCmp.isLE_trans hwu hvw)⟩

theorem notOlder_total (a b : String) : notOlder a b || notOlder b a := by
  rw [notOlder, notOlder]
  cases Version.ofTag? a with
  | none => cases Version.ofTag? b <;> rfl
  | some v =>
    cases Version.ofTag? b with
    | none => rfl
    | some w =>
      simp only [Bool.or_eq_true, bne_iff_ne]
      rw [@OrientedCmp.eq_swap _ Version.compare _ w v]
      cases Version.compare v w <;> decide

/-! ## The listing -/

/-- Tags of which none is older than another keep their order in the sort. -/
theorem filter_mergeSort_notOlder {p : String → Bool}
    (htied : ∀ a b, p a → p b → notOlder a b) (tags : List String) :
    (tags.mergeSort notOlder).filter p = tags.filter p := by
  have hsorted : (tags.filter p).Pairwise fun a b => notOlder a b := by
    refine List.pairwise_of_forall_mem_list fun a ha b hb => ?_
    exact htied a b (List.mem_filter.1 ha).2 (List.mem_filter.1 hb).2
  have hkept := (List.sublist_mergeSort notOlder_trans notOlder_total hsorted
    List.filter_sublist).filter p
  simp only [List.filter_filter, Bool.and_self] at hkept
  refine (hkept.eq_of_length ?_).symm
  exact ((List.mergeSort_perm tags notOlder).filter p).length_eq.symm

/-- In a list in which none is older than what follows, those without version are at the end. -/
theorem eq_versions_append_plain {listing : List String}
    (hsorted : listing.Pairwise fun a b => notOlder a b) :
    listing = (listing.filter fun tag => !isPlainTag tag) ++ listing.filter isPlainTag := by
  induction hsorted with
  | nil => rfl
  | @cons tag rest hfirst _ ih =>
    cases htag : isPlainTag tag with
    | false =>
      rw [List.filter_cons_of_pos (by simp [htag]), List.filter_cons_of_neg (by simp [htag]),
        List.cons_append, ← ih]
    | true =>
      have hrest : ∀ other ∈ rest, isPlainTag other := by
        intro other hother
        have hold := hfirst other hother
        rw [isPlainTag, Option.isNone_iff_eq_none] at htag
        cases hversion : Version.ofTag? other with
        | none => simp [isPlainTag, hversion]
        | some v => simp [notOlder, htag, hversion] at hold
      have hall : ∀ other ∈ tag :: rest, isPlainTag other := List.forall_mem_cons.2 ⟨htag, hrest⟩
      rw [List.filter_eq_self.2 hall, List.filter_eq_nil_iff.2 (by simpa using hall)]
      rfl

theorem newestFirst_listing (info : Info) : Listing info.versions info.newestFirst := by
  have hsorted : info.newestFirst.Pairwise fun a b => notOlder a b :=
    List.pairwise_mergeSort notOlder_trans notOlder_total _
  refine ⟨?perm, ?versions_first, ?descending, fun v => ?equal, ?others⟩
  case perm => exact (List.mergeSort_perm _ _).trans (List.reverse_perm _)
  case versions_first =>
    refine ⟨_, _, eq_versions_append_plain hsorted, fun tag htag => ?_, fun tag htag => ?_⟩
    · simpa using (List.mem_filter.1 htag).2
    · exact (List.mem_filter.1 htag).2
  case descending =>
    rw [List.pairwise_filterMap]
    refine hsorted.imp fun {a b} hold v hv w hw => ?_
    obtain ⟨_, hv', hvw⟩ := (notOlder_iff a b).1 hold w hw
    cases hv.symm.trans hv'
    exact hvw
  case equal =>
    rw [← List.filter_reverse]
    refine filter_mergeSort_notOlder (fun a b ha hb => ?_) _
    obtain ⟨w, hw, hvw⟩ := taggedBy_iff.1 ha
    obtain ⟨u, hu, hvu⟩ := taggedBy_iff.1 hb
    cases ranksWith_iff.1 hvw
    cases ranksWith_iff.1 hvu
    rw [notOlder_iff]
    intro u hu'
    cases hu.symm.trans hu'
    exact ⟨v, hw, by rw [Version.compare_self]; rfl⟩
  case others =>
    rw [← List.filter_reverse]
    refine filter_mergeSort_notOlder (fun a b _ hb => ?_) _
    rw [isPlainTag, Option.isNone_iff_eq_none] at hb
    simp [notOlder_iff, hb]

/-! ## The greatest tag -/

/-- The last of the greatest among tags with their versions. -/
structure LastGreatest (tags : List (Version × String)) (found : Version × String) : Prop where
  mem : found ∈ tags
  le : ∀ tag ∈ tags, (Version.compare tag.1 found.1).isLE
  last : (tags.filter fun tag => ranksWith found.1 tag.1).getLast? = some found

/-- One more tag at the end: it is taken unless what was found has a greater version. -/
theorem LastGreatest.laterMax {tags : List (Version × String)} {found : Version × String}
    (h : LastGreatest tags found) (next : Version × String) :
    LastGreatest (tags ++ [next]) (laterMax found next) := by
  rw [Info.laterMax]
  split
  next hgreater =>
    refine ⟨List.mem_append_left _ h.mem, fun tag htag => ?_, ?_⟩
    · rcases List.mem_append.1 htag with htag | htag
      · exact h.le tag htag
      · rw [List.mem_singleton.1 htag, OrientedCmp.gt_iff_lt.1 hgreater]
        rfl
    · have hnext : ranksWith found.1 next.1 = false := by simp [ranksWith, hgreater]
      simpa [List.filter_append, hnext] using h.last
  next hsmaller =>
    have hle : (Version.compare found.1 next.1).isLE := Ordering.isLE_iff_ne_gt.2 hsmaller
    refine ⟨by simp, fun tag htag => ?_, by simp [List.filter_append]⟩
    rcases List.mem_append.1 htag with htag | htag
    · exact TransCmp.isLE_trans (h.le tag htag) hle
    · rw [List.mem_singleton.1 htag, Version.compare_self]
      rfl

theorem foldl_laterMax (first : Version × String) (rest : List (Version × String)) :
    LastGreatest (first :: rest) (rest.foldl laterMax first) := by
  induction rest using List.reverseRecOn with
  | nil => exact ⟨List.mem_singleton.2 rfl, by simp [Version.compare_self], by simp⟩
  | append_singleton rest next ih =>
    rw [List.foldl_append]
    exact ih.laterMax next

theorem greatest?_eq_some {tags : List (Version × String)} {tag : String}
    (h : greatest? tags = some tag) : ∃ v, LastGreatest tags (v, tag) := by
  cases tags with
  | nil => cases h
  | cons first rest =>
    cases h
    exact ⟨_, foldl_laterMax first rest⟩

theorem greatest?_eq_none_iff {tags : List (Version × String)} :
    greatest? tags = none ↔ tags = [] := by
  cases tags <;> simp [greatest?]

theorem map_filter_parsedTags (q : Version → Bool) (tags : List String) :
    ((parsedTags tags).filter fun tag => q tag.1).map Prod.snd = tags.filter (taggedBy q) := by
  induction tags with
  | nil => rfl
  | cons tag tags ih =>
    rw [parsedTags] at ih
    cases hversion : Version.ofTag? tag with
    | none => simpa [parsedTags, taggedBy, hversion] using ih
    | some v => cases hq : q v <;> simpa [parsedTags, taggedBy, hversion, hq] using ih

theorem mem_parsedTags {tags : List String} {v : Version} {tag : String} :
    (v, tag) ∈ parsedTags tags ↔ tag ∈ tags ∧ Version.ofTag? tag = some v := by
  simp [parsedTags]

/-- What is found is the last tag of its rank, not only among those with the property. -/
theorem LastGreatest.getLast?_filter {q : Version → Bool} {tags : List String} {v : Version}
    {tag : String} (h : LastGreatest ((parsedTags tags).filter fun tag => q tag.1) (v, tag)) :
    (tags.filter (taggedBy (ranksWith v))).getLast? = some tag := by
  have hq : q v := (List.mem_filter.1 h.mem).2
  have hsame : ((parsedTags tags).filter fun tag => q tag.1).filter (fun tag => ranksWith v tag.1) =
      (parsedTags tags).filter fun tag => ranksWith v tag.1 := by
    rw [List.filter_filter]
    refine List.filter_congr fun other _ => ?_
    by_cases hrank : v = other.1
    · simp [← hrank, hq]
    · simp [show ranksWith v other.1 = false from Bool.eq_false_iff.2 (mt ranksWith_iff.1 hrank)]
  rw [← map_filter_parsedTags, List.getLast?_map, ← hsame, h.last]
  rfl

/-! ## Agreement -/

section

variable {tags listing : List String}

theorem Listing.mem_iff (h : Listing tags listing) {tag : String} : tag ∈ listing ↔ tag ∈ tags :=
  h.perm.mem_iff

theorem Listing.isGE_of_append (h : Listing tags listing) {before after : List String}
    (hsplit : listing = before ++ after) {a b : String} (ha : a ∈ before) (hb : b ∈ after)
    {v w : Version} (hv : Version.ofTag? a = some v) (hw : Version.ofTag? b = some w) :
    (Version.compare v w).isGE := by
  have hdescending := h.descending
  rw [hsplit, List.filterMap_append, List.pairwise_append] at hdescending
  exact hdescending.2.2 v (List.mem_filterMap.2 ⟨a, ha, hv⟩) w (List.mem_filterMap.2 ⟨b, hb, hw⟩)

/-- The first tag of a listing with a property of its version is the last of the greatest ones. -/
theorem Listing.find?_taggedBy (h : Listing tags listing) (q : Version → Bool) :
    listing.find? (taggedBy q) = greatest? ((parsedTags tags).filter fun tag => q tag.1) := by
  cases hgreatest : greatest? ((parsedTags tags).filter fun tag => q tag.1) with
  | none =>
    rw [greatest?_eq_none_iff] at hgreatest
    rw [List.find?_eq_none]
    intro tag htag
    have hnone : tags.filter (taggedBy q) = [] := by rw [← map_filter_parsedTags, hgreatest]; rfl
    exact List.filter_eq_nil_iff.1 hnone tag (h.mem_iff.1 htag)
  | some found =>
    obtain ⟨v, hfound⟩ := greatest?_eq_some hgreatest
    obtain ⟨hmem, hqv⟩ := List.mem_filter.1 hfound.mem
    have hversion : Version.ofTag? found = some v := (mem_parsedTags.1 hmem).2
    have hfirst : listing.find? (taggedBy (ranksWith v)) = some found := by
      rw [← List.head?_filter, h.equal, List.head?_reverse, hfound.getLast?_filter]
    rw [List.find?_eq_some_iff_append] at hfirst ⊢
    obtain ⟨-, before, after, hsplit, hbefore⟩ := hfirst
    refine ⟨taggedBy_iff.2 ⟨v, hversion, hqv⟩, before, after, hsplit, fun tag htag => ?_⟩
    -- in front of it a tag with the property would rank with it
    rw [Bool.not_eq_true', Bool.eq_false_iff]
    intro hq
    obtain ⟨w, hw, hqw⟩ := taggedBy_iff.1 hq
    have htags : tag ∈ tags := h.mem_iff.1 (hsplit ▸ List.mem_append_left _ htag)
    have hle : (Version.compare w v).isLE :=
      hfound.le (w, tag) (List.mem_filter.2 ⟨mem_parsedTags.2 ⟨htags, hw⟩, hqw⟩)
    have hge : (Version.compare w v).isGE :=
      h.isGE_of_append hsplit htag List.mem_cons_self hw hversion
    have hrank : w = v := LawfulEqCmp.eq_of_compare (OrientedCmp.isLE_antisymm hle
      (OrientedCmp.isGE_iff_isLE.1 hge))
    have hnot := hbefore tag htag
    rw [taggedBy, hw, hrank] at hnot
    simp at hnot

/-- The first tag of a listing has a version if any tag has one. -/
theorem Listing.head?_eq (h : Listing tags listing) :
    listing.head? = (listing.find? (taggedBy fun _ => true)).or tags.getLast? := by
  obtain ⟨versions, others, hsplit, hversions, hothers⟩ := h.versions_first
  cases versions with
  | nil =>
    rw [List.nil_append] at hsplit
    subst hsplit
    have hplain : ∀ tag ∈ tags, isPlainTag tag := fun tag htag => hothers tag (h.mem_iff.2 htag)
    have hnone : listing.find? (taggedBy fun _ => true) = none := by
      rw [List.find?_eq_none]
      intro tag htag
      simpa [isPlainTag, taggedBy] using hothers tag htag
    have hreverse := h.others
    rw [List.filter_eq_self.2 hothers, List.filter_eq_self.2 hplain] at hreverse
    rw [hnone, Option.none_or, hreverse, List.head?_reverse]
  | cons tag versions =>
    have htag : taggedBy (fun _ => true) tag := by
      obtain ⟨v, hv⟩ := Option.ne_none_iff_exists'.1
        (mt Option.isNone_iff_eq_none.2 (hversions tag List.mem_cons_self))
      exact taggedBy_iff.2 ⟨v, hv, rfl⟩
    rw [hsplit, List.cons_append, List.find?_cons_of_pos htag]
    rfl

end

/-- The tags are listed from new to old, and the latest tag is the first one there that names a
release, else the first one. -/
theorem newestFirst_and_latest? (info : Info) :
    Listing info.versions info.newestFirst ∧
      info.latest? = (info.newestFirst.find? (taggedBy Version.isStable)).or
        info.newestFirst.head? ∧
      (info.latest? = none ↔ info.versions = []) := by
  have hlisting := info.newestFirst_listing
  have hlatest : info.latest? =
      (info.newestFirst.find? (taggedBy Version.isStable)).or info.newestFirst.head? := by
    rw [hlisting.head?_eq, hlisting.find?_taggedBy, hlisting.find?_taggedBy, List.filter_true]
    rfl
  refine ⟨hlisting, hlatest, ?_⟩
  rw [hlatest, Option.or_eq_none_iff, List.head?_eq_none_iff]
  constructor
  · rintro ⟨-, hnil⟩
    exact List.nil_perm.1 (hnil ▸ hlisting.perm)
  · intro hnil
    have hempty : info.newestFirst = [] := List.perm_nil.1 (hnil ▸ hlisting.perm)
    exact ⟨by rw [hempty]; rfl, hempty⟩

/-- A release with `v` and one without, a pre-release between them and a tag without version. -/
theorem newestFirst_and_latest?_mixed_tags :
    let info : Info := ⟨"Kit", "kit", ["1.0.0", "nightly", "v2.0.0-beta.1", "v1.5.0"], []⟩
    Listing info.versions info.newestFirst ∧
      info.newestFirst = ["v2.0.0-beta.1", "v1.5.0", "1.0.0", "nightly"] ∧
      info.latest? = some "v1.5.0" := by
  intro info
  have hnewest : info.newestFirst = ["v2.0.0-beta.1", "v1.5.0", "1.0.0", "nightly"] := by
    have hpreRelease : notOlder "v1.5.0" "v2.0.0-beta.1" = false := by decide +kernel
    have hplain : notOlder "nightly" "1.0.0" = false := by decide +kernel
    have hbeta : notOlder "v2.0.0-beta.1" "1.0.0" = true := by decide +kernel
    have hrelease : notOlder "v1.5.0" "1.0.0" = true := by decide +kernel
    simp [newestFirst, info, List.mergeSort, List.MergeSort.Internal.splitInTwo, hpreRelease,
      hplain, hbeta, hrelease]
  obtain ⟨hlisting, hlatest, -⟩ := newestFirst_and_latest? info
  refine ⟨hlisting, hnewest, ?_⟩
  rw [hlatest, hnewest]
  decide +kernel

end PackageManifest.Package.Info
