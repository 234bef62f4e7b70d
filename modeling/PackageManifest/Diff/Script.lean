/-!
# Edit scripts

A shortest way from one list of lines to another. Paths grow from both ends of the edit graph until
two of them meet; where they meet splits the problem in two, so only the ends of paths are kept.
-/

namespace PackageManifest.Diff

/-- A step of a script. Positions count lines from the start of the old and of the new text. -/
inductive Op where
  | equal (old new len : Nat)
  | delete (old len new : Nat)
  | insert (old new len : Nat)
  | replace (old oldLen new newLen : Nat)
  deriving DecidableEq, Repr

namespace Op

def oldStart : Op → Nat
  | equal old _ _ => old
  | delete old _ _ => old
  | insert old _ _ => old
  | replace old _ _ _ => old

def newStart : Op → Nat
  | equal _ new _ => new
  | delete _ _ new => new
  | insert _ new _ => new
  | replace _ _ new _ => new

def oldLength : Op → Nat
  | equal _ _ len => len
  | delete _ len _ => len
  | insert _ _ _ => 0
  | replace _ len _ _ => len

def newLength : Op → Nat
  | equal _ _ len => len
  | delete _ _ _ => 0
  | insert _ _ len => len
  | replace _ _ _ len => len

def oldEnd (op : Op) : Nat := op.oldStart + op.oldLength

def newEnd (op : Op) : Nat := op.newStart + op.newLength

end Op

/-- A part of the old lines and a part of the new ones, ends excluded. -/
structure Window where
  oldStart : Nat
  oldEnd : Nat
  newStart : Nat
  newEnd : Nat

variable {α : Type} [BEq α]

def commonStart (old new : Array α) (i j : Nat) : (limit : Nat) → Nat
  | 0 => 0
  | limit + 1 =>
    match old[i]?, new[j]? with
    | some a, some b => if a == b then commonStart old new (i + 1) (j + 1) limit + 1 else 0
    | _, _ => 0

def commonEnd (old new : Array α) (i j : Nat) : (limit : Nat) → Nat
  | 0 => 0
  | limit + 1 =>
    match i, j with
    | i + 1, j + 1 =>
      match old[i]?, new[j]? with
      | some a, some b => if a == b then commonEnd old new i j limit + 1 else 0
      | _, _ => 0
    | _, _ => 0

structure Frontier where
  offset : Nat
  reach : Array Nat

namespace Frontier

def empty (offset : Nat) : Frontier := ⟨offset, Array.replicate (2 * offset + 2) 0⟩

def get (f : Frontier) (k : Int) : Nat := f.reach.getD (k + f.offset).toNat 0

def set (f : Frontier) (k : Int) (x : Nat) : Frontier :=
  { f with reach := f.reach.setIfInBounds (k + f.offset).toNat x }

/-- Where a path of `d` steps arrives on diagonal `k` before it slides. -/
def arrive (f : Frontier) (d k : Int) : Nat :=
  if k == -d || (k != d && f.get (k - 1) < f.get (k + 1)) then f.get (k + 1) else f.get (k - 1) + 1

end Frontier

/-- How many steps each half of a shortest path takes at most. -/
def maxSteps (n m : Nat) : Nat := (n + m + 1) / 2 + 1

def diagonals (d : Nat) : List Int :=
  (List.range (d + 1)).map fun (i : Nat) => (d : Int) - 2 * (i : Int)

/-- The frontiers of the paths from both ends, or the place where they meet. -/
abbrev Search := Except (Nat × Nat) (Frontier × Frontier)

def stepForward (old new : Array α) (w : Window) (d : Nat) (s : Frontier × Frontier) (k : Int) :
    Search :=
  let n := w.oldEnd - w.oldStart
  let m := w.newEnd - w.newStart
  let delta : Int := (n : Int) - (m : Int)
  let (forward, backward) := s
  let x := forward.arrive d k
  let y := ((x : Int) - k).toNat
  let slide := commonStart old new (w.oldStart + x) (w.newStart + y) (min (n - x) (m - y))
  let forward := forward.set k (x + slide)
  if delta % 2 != 0 && (k - delta).natAbs + 1 ≤ d &&
      n ≤ x + slide + backward.get (-(k - delta)) then
    .error (x + w.oldStart, y + w.newStart)
  else .ok (forward, backward)

def stepBackward (old new : Array α) (w : Window) (d : Nat) (s : Frontier × Frontier) (k : Int) :
    Search :=
  let n := w.oldEnd - w.oldStart
  let m := w.newEnd - w.newStart
  let delta : Int := (n : Int) - (m : Int)
  let (forward, backward) := s
  let x := backward.arrive d k
  let y := ((x : Int) - k).toNat
  let slide :=
    commonEnd old new (w.oldStart + (n - x)) (w.newStart + (m - y)) (min (n - x) (m - y))
  let backward := backward.set k (x + slide)
  if delta % 2 == 0 && (k - delta).natAbs ≤ d && n ≤ x + slide + forward.get (-(k - delta)) then
    .error (n - (x + slide) + w.oldStart, m - (y + slide) + w.newStart)
  else .ok (forward, backward)

def stepAll (old new : Array α) (w : Window) (s : Frontier × Frontier) (d : Nat) : Search :=
  match (diagonals d).foldlM (stepForward old new w d) s with
  | .error found => .error found
  | .ok s => (diagonals d).foldlM (stepBackward old new w d) s

/-- A place in the middle of a shortest path. -/
def middle? (old new : Array α) (w : Window) : Option (Nat × Nat) :=
  let limit := maxSteps (w.oldEnd - w.oldStart) (w.newEnd - w.newStart)
  match (List.range limit).foldlM (stepAll old new w) (.empty limit, .empty limit) with
  | .error found => some found
  | .ok _ => none

/-- The script for a window; `fuel` bounds how often it is split. -/
def conquer (old new : Array α) (fuel : Nat) (w : Window) : List Op :=
  match fuel with
  | 0 => []
  | fuel + 1 =>
    let lead := commonStart old new w.oldStart w.newStart
      (min (w.oldEnd - w.oldStart) (w.newEnd - w.newStart))
    let oldStart := w.oldStart + lead
    let newStart := w.newStart + lead
    let trail := commonEnd old new w.oldEnd w.newEnd
      (min (w.oldEnd - oldStart) (w.newEnd - newStart))
    let oldEnd := w.oldEnd - trail
    let newEnd := w.newEnd - trail
    let inner :=
      if oldStart == oldEnd && newStart == newEnd then []
      else if newStart == newEnd then [Op.delete oldStart (oldEnd - oldStart) newStart]
      else if oldStart == oldEnd then [Op.insert oldStart newStart (newEnd - newStart)]
      else
        match middle? old new ⟨oldStart, oldEnd, newStart, newEnd⟩ with
        | some (x, y) =>
          conquer old new fuel ⟨oldStart, x, newStart, y⟩ ++
            conquer old new fuel ⟨x, oldEnd, y, newEnd⟩
        | none =>
          [.delete oldStart (oldEnd - oldStart) newStart,
            .insert oldStart newStart (newEnd - newStart)]
    (if lead == 0 then [] else [.equal w.oldStart w.newStart lead]) ++ inner ++
      if trail == 0 then [] else [.equal oldEnd newEnd trail]

def rawScript (old new : Array α) : List Op :=
  conquer old new (old.size + new.size + 1) ⟨0, old.size, 0, new.size⟩

end PackageManifest.Diff
