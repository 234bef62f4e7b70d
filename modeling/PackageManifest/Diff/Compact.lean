import PackageManifest.Diff.Script

/-!
# Tidy scripts

Steps of a script are moved up and then down as far as the lines around them allow, so that steps of
the same kind meet and become one. Then a deletion and an insertion at one place become a
replacement.
-/

namespace PackageManifest.Diff

namespace Op

def isEqual : Op → Bool
  | equal _ _ _ => true
  | _ => false

def isDelete : Op → Bool
  | delete _ _ _ => true
  | _ => false

def isInsert : Op → Bool
  | insert _ _ _ => true
  | _ => false

def isEmpty (op : Op) : Bool := op.oldLength == 0 && op.newLength == 0

def adjust (start len : Nat → Nat) : Op → Op
  | equal old new n => equal (start old) (start new) (len n)
  | delete old n new => delete (start old) (len n) (start new)
  | insert old new n => insert (start old) (start new) (len n)
  | replace old n new m => replace (start old) (len n) (start new) (len m)

def shiftLeft (n : Nat) : Op → Op := adjust (· - n) id

def shiftRight (n : Nat) : Op → Op := adjust (· + n) id

def growLeft (n : Nat) : Op → Op := adjust (· - n) (· + n)

def growRight (n : Nat) : Op → Op := adjust id (· + n)

def shrinkEnd (n : Nat) : Op → Op := adjust id (· - n)

def shrinkStart (n : Nat) : Op → Op := adjust (· + n) (· - n)

end Op

/-- A script and a position in it. -/
structure Spot where
  ops : List Op
  index : Nat

variable {α : Type} [BEq α]

/-- One move of the step at the position towards the start, if there is one: it changes places with
a step of the other kind, joins one of its own kind, or slides over lines that agree. -/
def moveUp (old new : Array α) (s : Spot) : Option Spot :=
  match s.index with
  | 0 => none
  | above + 1 =>
    match s.ops[above]?, s.ops[s.index]? with
    | some prev, some this =>
      if prev.isEqual then
        let slide := commonEnd old new prev.oldEnd this.newEnd (min prev.oldLength this.newLength)
        if slide == 0 then
          if prev.isEmpty then some ⟨s.ops.eraseIdx above, above⟩ else none
        else
          let extended :=
            if (s.ops[s.index + 1]?.map Op.isEqual).getD false then
              s.ops.modify (s.index + 1) (Op.growLeft slide)
            else
              s.ops.insertIdx (s.index + 1)
                (.equal (prev.oldEnd - slide) (this.newEnd - slide) slide)
          let shifted := extended.modify s.index (Op.shiftLeft slide)
          let moved := shifted.modify above (Op.shrinkEnd slide)
          if prev.oldLength == slide then some ⟨moved.eraseIdx above, above⟩
          else some ⟨moved, s.index⟩
      else if prev.isDelete == this.isDelete then
        let grown := s.ops.modify above (Op.growRight (this.oldLength + this.newLength))
        some ⟨grown.eraseIdx s.index, above⟩
      else some ⟨(s.ops.set above this).set s.index prev, above⟩
    | _, _ => none

def moveDown (old new : Array α) (s : Spot) : Option Spot :=
  match s.ops[s.index]?, s.ops[s.index + 1]? with
  | some this, some next =>
    if next.isEqual then
      let limit := min next.oldLength this.newLength
      let slide := commonStart old new next.oldStart this.newStart limit
      if slide == 0 then
        if next.isEmpty then some ⟨s.ops.eraseIdx (s.index + 1), s.index⟩ else none
      else
        let above := s.index - 1
        let extended : Spot :=
          if s.index != 0 && (s.ops[above]?.map Op.isEqual).getD false then
            ⟨s.ops.modify above (Op.growRight slide), s.index⟩
          else ⟨s.ops.insertIdx s.index (.equal next.oldStart this.newStart slide), s.index + 1⟩
        let i := extended.index
        let shifted := extended.ops.modify i (Op.shiftRight slide)
        let moved := shifted.modify (i + 1) (Op.shrinkStart slide)
        if next.oldLength == slide then some ⟨moved.eraseIdx (i + 1), i⟩ else some ⟨moved, i⟩
    else if next.isDelete == this.isDelete then
      let grown := s.ops.modify s.index (Op.growRight (next.oldLength + next.newLength))
      some ⟨grown.eraseIdx (s.index + 1), s.index⟩
    else some ⟨(s.ops.set s.index next).set (s.index + 1) this, s.index + 1⟩
  | _, _ => none

def repeatMove (move : Spot → Option Spot) : (fuel : Nat) → Spot → Spot
  | 0, s => s
  | fuel + 1, s =>
    match move s with
    | none => s
    | some s => repeatMove move fuel s

/-- Moves every step of one kind up and then down. -/
def settle (old new : Array α) (kind : Op → Bool) (moves : Nat) : (fuel : Nat) → Spot → List Op
  | 0, s => s.ops
  | fuel + 1, s =>
    match s.ops[s.index]? with
    | none => s.ops
    | some op =>
      let s :=
        if kind op then
          repeatMove (moveDown old new) moves (repeatMove (moveUp old new) moves s)
        else s
      settle old new kind moves fuel ⟨s.ops, s.index + 1⟩

structure Pending where
  equal : Option (Nat × Nat × Nat) := none
  delete : Option (Nat × Nat × Nat) := none
  insert : Option (Nat × Nat × Nat) := none

namespace Pending

def changes (p : Pending) : List Op :=
  match p.delete, p.insert with
  | some (old, len, _), some (_, new, newLen) => [.replace old len new newLen]
  | some (old, len, new), none => [.delete old len new]
  | none, some (old, new, len) => [.insert old new len]
  | none, none => []

def equals (p : Pending) : List Op :=
  match p.equal with
  | some (old, new, len) => [.equal old new len]
  | none => []

end Pending

def join (p : Pending) : List Op → List Op
  | [] => p.equals ++ p.changes
  | .equal old new len :: ops =>
    let joined :=
      match p.equal with
      | some (old, new, n) => (old, new, n + len)
      | none => (old, new, len)
    p.changes ++ join { equal := some joined } ops
  | .delete old len new :: ops =>
    let joined :=
      match p.delete with
      | some (old, n, new) => (old, n + len, new)
      | none => (old, len, new)
    p.equals ++ join { delete := some joined, insert := p.insert } ops
  | .insert old new len :: ops =>
    let joined :=
      match p.insert with
      | some (old, new, n) => (old, new, n + len)
      | none => (old, new, len)
    p.equals ++ join { delete := p.delete, insert := some joined } ops
  | op :: ops => p.equals ++ p.changes ++ op :: join {} ops

def script (old new : Array α) : List Op :=
  let size := old.size + new.size
  let raw := rawScript old new
  let moves := size + 2 * raw.length + 2
  let fuel := 4 * moves
  let deletions := settle old new Op.isDelete moves fuel ⟨raw, 0⟩
  join {} (settle old new Op.isInsert moves fuel ⟨deletions, 0⟩)

end PackageManifest.Diff
