import PackageManifest.Text.Basic
import PackageManifest.Text.Blank

/-!
# Semantic versions

Three numbers, the identifiers of a pre-release and those of build metadata, in the order of the
versions: a pre-release comes before the release, and build metadata decides last.
-/

namespace PackageManifest

structure Version where
  major : Nat
  minor : Nat
  patch : Nat
  preRelease : List (List Char)
  build : List (List Char)
  deriving DecidableEq, Repr

namespace Version

def numberLimit : Nat := Nat.pow 2 64

def isIdentChar (c : Char) : Bool := c.isAlphanum || c == '-'

def decimal (digits : List Char) : Nat :=
  digits.foldl (fun n c => 10 * n + (c.toNat - '0'.toNat)) 0

def number? (cs : List Char) : Option (Nat × List Char) :=
  let digits := cs.takeWhile Char.isDigit
  let value := decimal digits
  if digits.isEmpty then none
  else if digits.head? = some '0' && digits.length != 1 then none
  else if numberLimit ≤ value then none
  else some (value, cs.dropWhile Char.isDigit)

def numberAndPoint? (cs : List Char) : Option (Nat × List Char) :=
  match number? cs with
  | some (n, '.' :: rest) => some (n, rest)
  | _ => none

def splitPoints (cs : List Char) : List (List Char) :=
  match cs with
  | [] => [[]]
  | c :: cs =>
    if c = '.' then [] :: splitPoints cs
    else
      match splitPoints cs with
      | part :: parts => (c :: part) :: parts
      | [] => [[c]]

/-- A number among the identifiers of a pre-release has no leading zero. -/
def isPreReleaseIdent (ident : List Char) : Bool :=
  !ident.isEmpty && !(ident.all Char.isDigit && ident.head? == some '0' && ident.length != 1)

def idents? (valid : List Char → Bool) (cs : List Char) :
    Option (List (List Char) × List Char) :=
  let isPart (c : Char) : Bool := isIdentChar c || c == '.'
  let parts := splitPoints (cs.takeWhile isPart)
  if parts.all valid then some (parts, cs.dropWhile isPart) else none

def tags? (cs : List Char) : Option (List (List Char) × List (List Char)) :=
  let pre :=
    match cs with
    | '-' :: rest => idents? isPreReleaseIdent rest
    | _ => some ([], cs)
  match pre with
  | none => none
  | some (preRelease, rest) =>
    let build :=
      match rest with
      | '+' :: rest => idents? (fun ident => !ident.isEmpty) rest
      | _ => some ([], rest)
    match build with
    | some (build, []) => some (preRelease, build)
    | _ => none

def parse? (cs : List Char) : Option Version :=
  match numberAndPoint? cs with
  | none => none
  | some (major, rest) =>
    match numberAndPoint? rest with
    | none => none
    | some (minor, rest) =>
      match number? rest with
      | none => none
      | some (patch, rest) =>
        match tags? rest with
        | none => none
        | some (preRelease, build) => some ⟨major, minor, patch, preRelease, build⟩

theorem parse?_cons_of_not_isDigit {c : Char} (hc : c.isDigit = false) (cs : List Char) :
    parse? (c :: cs) = none := by
  have hnumber : number? (c :: cs) = none := by simp [number?, hc]
  rw [parse?, numberAndPoint?, hnumber]

/-- The version that a release tag names; a `v` may stand before it. -/
def ofTag? (tag : String) : Option Version :=
  match Text.trim tag.toList with
  | 'v' :: rest => parse? rest
  | cs => parse? cs

/-- A tag names a version if that is its text without the blanks around it, or what follows one `v`
there. -/
theorem ofTag?_eq_some_iff {tag : String} {v : Version} :
    ofTag? tag = some v ↔ parse? (Text.trim tag.toList) = some v ∨
      ∃ rest, Text.trim tag.toList = 'v' :: rest ∧ parse? rest = some v := by
  unfold ofTag?
  split
  next rest htag =>
    have hnone : parse? ('v' :: rest) = none := parse?_cons_of_not_isDigit (by decide) rest
    simp [htag, hnone]
  next hplain =>
    constructor
    · exact Or.inl
    · rintro (hparse | ⟨rest, htag, -⟩)
      · exact hparse
      · exact absurd htag (hplain rest)

theorem ofTag?_of_tags :
    ofTag? "v1.2.3" = some ⟨1, 2, 3, [], []⟩ ∧
      ofTag? " 2.0.0-beta.1 " = some ⟨2, 0, 0, [['b', 'e', 't', 'a'], ['1']], []⟩ ∧
      ofTag? "1.0.0+7" = some ⟨1, 0, 0, [], [['7']]⟩ ∧
      ofTag? "vv1.2.3" = none ∧ ofTag? "V1.2.3" = none ∧ ofTag? "v 1.2.3" = none ∧
      ofTag? "1.2" = none ∧ ofTag? "nightly" = none := by
  decide +kernel

def compareText : List Char → List Char → Ordering
  | [], [] => .eq
  | [], _ :: _ => .lt
  | _ :: _, [] => .gt
  | a :: as, b :: bs => (compare a.toNat b.toNat).then (compareText as bs)

/-- Numbers come before other identifiers and are ordered by value; of numbers with the same value
the shorter comes first. Other identifiers are ordered as texts. -/
def compareIdent (a b : List Char) : Ordering :=
  match a.all Char.isDigit, b.all Char.isDigit with
  | true, true =>
    let value (cs : List Char) : List Char := cs.dropWhile (· == '0')
    ((compare (value a).length (value b).length).then (compareText (value a) (value b))).then
      (compare a.length b.length)
  | true, false => .lt
  | false, true => .gt
  | false, false => compareText a b

def compareIdents : List (List Char) → List (List Char) → Ordering
  | [], [] => .eq
  | [], _ :: _ => .lt
  | _ :: _, [] => .gt
  | a :: as, b :: bs => (compareIdent a b).then (compareIdents as bs)

def comparePreRelease (a b : List (List Char)) : Ordering :=
  match a, b with
  | [], [] => .eq
  | [], _ :: _ => .gt
  | _ :: _, [] => .lt
  | a, b => compareIdents a b

def compare (a b : Version) : Ordering :=
  ((((Ord.compare a.major b.major).then (Ord.compare a.minor b.minor)).then
    (Ord.compare a.patch b.patch)).then (comparePreRelease a.preRelease b.preRelease)).then
    (compareIdents a.build b.build)

def isStable (v : Version) : Bool := v.preRelease.isEmpty

end Version

end PackageManifest
