import Mathlib.Data.List.Sort
import Mathlib.Data.List.TakeWhile
import PackageManifest.Version

/-!
# The order of versions

`Version.compare` is a total order, and only a version itself compares equal to it. It and the
orders of its parts are lexicographic combinations of keys: a first key decides, and where it does
not the next one does. Each is brought to that form here, and the laws follow from those of the
keys.
-/

namespace PackageManifest.Version

open Std

theorem transCmp_comap {α β : Type} (cmp : β → β → Ordering) [TransCmp cmp] (f : α → β) :
    TransCmp fun a b => cmp (f a) (f b) where
  eq_swap {a b} := @OrientedCmp.eq_swap β cmp _ (f a) (f b)
  isLE_trans {a b c} hab hbc := @TransCmp.isLE_trans β cmp _ (f a) (f b) (f c) hab hbc

/-! ## Texts -/

instance : LawfulEqCmp (compareOn Char.toNat) where
  compare_self := ReflCmp.compare_self
  eq_of_compare h := Char.toNat_inj.1 (LawfulEqCmp.eq_of_compare h)

theorem compareText_eq (a b : List Char) :
    compareText a b = List.compareLex (compareOn Char.toNat) a b := by
  fun_induction compareText a b with
  | case1 => rfl
  | case2 => rfl
  | case3 => rfl
  | case4 a as b bs ih =>
    rw [ih, List.compareLex_cons_cons]
    rfl

instance : TransCmp compareText :=
  (funext₂ compareText_eq : compareText = _) ▸ inferInstance

instance : LawfulEqCmp compareText :=
  (funext₂ compareText_eq : compareText = _) ▸ inferInstance

/-! ## Identifiers -/

def isNumber (ident : List Char) : Bool := ident.all Char.isDigit

/-- A number without its leading zeros; any other identifier as it is. -/
def significant (ident : List Char) : List Char :=
  if isNumber ident then ident.dropWhile (· == '0') else ident

/-- Only the value of a number is read in the order of lengths. -/
def magnitude (ident : List Char) : Nat :=
  if isNumber ident then (significant ident).length else 0

def numberLength (ident : List Char) : Nat := if isNumber ident then ident.length else 0

/-- Numbers first, then by magnitude, digit by digit, and by the zeros in front. -/
def compareIdentKeys : List Char → List Char → Ordering :=
  compareLex (compareLex (compareLex (compareOn fun ident => !isNumber ident) (compareOn magnitude))
    fun a b => compareText (significant a) (significant b)) (compareOn numberLength)

theorem compareIdent_eq (a b : List Char) : compareIdent a b = compareIdentKeys a b := by
  rw [compareIdent]
  cases ha : a.all Char.isDigit <;> cases hb : b.all Char.isDigit <;>
    simp [compareIdentKeys, compareLex, compareOn, magnitude, numberLength, significant, isNumber,
      ha, hb, Ordering.then_assoc] <;> rfl

/-- A number is what is significant of it behind as many zeros as its length leaves. -/
theorem eq_of_dropZeros_eq {a b : List Char}
    (hdigits : a.dropWhile (· == '0') = b.dropWhile (· == '0')) (hlength : a.length = b.length) :
    a = b := by
  have split_eq (cs : List Char) :
      ∃ n, cs = List.replicate n '0' ++ cs.dropWhile (· == '0') := by
    have hzeros : ∀ c ∈ cs.takeWhile (· == '0'), c = '0' := by
      intro c hc
      simpa using List.mem_takeWhile_imp hc
    refine ⟨(cs.takeWhile (· == '0')).length, ?_⟩
    rw [← List.eq_replicate_of_mem hzeros]
    exact List.takeWhile_append_dropWhile.symm
  obtain ⟨n, hn⟩ := split_eq a
  obtain ⟨m, hm⟩ := split_eq b
  have hcount := congrArg List.length hn
  have hcount' := congrArg List.length hm
  rw [List.length_append, List.length_replicate] at hcount hcount'
  have hsame : n = m := by
    rw [hdigits] at hcount
    omega
  rw [hn, hm, hsame, hdigits]

instance : TransCmp fun a b => compareText (significant a) (significant b) :=
  transCmp_comap compareText significant

instance : TransCmp compareIdentKeys := inferInstanceAs (TransCmp (compareLex _ _))

instance : LawfulEqCmp compareIdentKeys where
  compare_self := ReflCmp.compare_self
  eq_of_compare {a b} h := by
    simp only [compareIdentKeys, compareLex_eq_eq, compareOn] at h
    obtain ⟨⟨⟨hkind, -⟩, htext⟩, hlength⟩ := h
    have hkind : isNumber a = isNumber b := Bool.not_inj (LawfulEqCmp.eq_of_compare hkind)
    have htext : significant a = significant b := LawfulEqCmp.eq_of_compare htext
    have hlength : numberLength a = numberLength b := LawfulEqCmp.eq_of_compare hlength
    cases hb : isNumber b with
    | true =>
      rw [hb] at hkind
      simp only [significant, numberLength, hkind, hb, if_true] at htext hlength
      exact eq_of_dropZeros_eq htext hlength
    | false =>
      rw [hb] at hkind
      simpa [significant, hkind, hb] using htext

theorem compareIdents_eq (a b : List (List Char)) :
    compareIdents a b = List.compareLex compareIdentKeys a b := by
  fun_induction compareIdents a b with
  | case1 => rfl
  | case2 => rfl
  | case3 => rfl
  | case4 a as b bs ih => rw [ih, compareIdent_eq, List.compareLex_cons_cons]

instance : TransCmp compareIdents :=
  (funext₂ compareIdents_eq : compareIdents = _) ▸ inferInstance

instance : LawfulEqCmp compareIdents :=
  (funext₂ compareIdents_eq : compareIdents = _) ▸ inferInstance

/-! ## Versions -/

theorem comparePreRelease_eq (a b : List (List Char)) :
    comparePreRelease a b = compareLex (compareOn List.isEmpty) compareIdents a b := by
  cases a <;> cases b <;> rfl

instance : TransCmp comparePreRelease :=
  (funext₂ comparePreRelease_eq : comparePreRelease = _) ▸ inferInstance

instance : TransCmp fun a b : Version => comparePreRelease a.preRelease b.preRelease :=
  transCmp_comap comparePreRelease preRelease

instance : TransCmp fun a b : Version => compareIdents a.build b.build :=
  transCmp_comap compareIdents build

theorem compare_eq (a b : Version) :
    compare a b = compareLex (compareLex (compareLex (compareLex (compareOn major)
      (compareOn minor)) (compareOn patch))
        fun a b => comparePreRelease a.preRelease b.preRelease)
          (fun a b => compareIdents a.build b.build) a b := rfl

instance : TransCmp compare :=
  (funext₂ compare_eq : compare = _) ▸ inferInstance

instance : LawfulEqCmp compare where
  compare_self := ReflCmp.compare_self
  eq_of_compare {a b} h := by
    simp only [compare_eq, compareLex_eq_eq, comparePreRelease_eq] at h
    obtain ⟨⟨⟨⟨hmajor, hminor⟩, hpatch⟩, -, hpre⟩, hbuild⟩ := h
    rw [Version.mk.injEq]
    exact ⟨Nat.compare_eq_eq.1 hmajor, Nat.compare_eq_eq.1 hminor, Nat.compare_eq_eq.1 hpatch,
      LawfulEqCmp.eq_of_compare hpre, LawfulEqCmp.eq_of_compare hbuild⟩

@[simp]
theorem compare_self (v : Version) : compare v v = .eq := ReflCmp.compare_self

end PackageManifest.Version
