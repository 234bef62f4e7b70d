import PackageManifest.Source.Token

/-!
# Where a string literal ends

A string literal opens with some pound signs and one quote, or three quotes if it may span lines.
It closes with the same quotes and as many pound signs. A backslash followed by those pound signs
escapes the next character; before a parenthesis it starts an interpolation, which runs to the
matching parenthesis and may hold string literals of its own.
-/

namespace PackageManifest.Source

abbrev Tail (cs : List Char) := { rest : List Char // rest <:+ cs }

abbrev Tail.whole (cs : List Char) : Tail cs := ⟨cs, List.suffix_rfl⟩

/-- What encloses a string literal. -/
structure Fence where
  pounds : Nat
  multiline : Bool
  deriving DecidableEq, Repr

namespace Fence

def quotes (fence : Fence) : List Char :=
  if fence.multiline then ['"', '"', '"'] else ['"']

def closing (fence : Fence) : List Char := fence.quotes ++ List.replicate fence.pounds '#'

def escape (fence : Fence) : List Char := '\\' :: List.replicate fence.pounds '#'

/-- The fence that opens at the start of a text, and the text behind it. -/
def open? (cs : List Char) : Option (Fence × List Char) :=
  let pounds := (cs.takeWhile (· == '#')).length
  match cs.dropWhile (· == '#') with
  | '"' :: '"' :: '"' :: body => some (⟨pounds, true⟩, body)
  | '"' :: body => some (⟨pounds, false⟩, body)
  | _ => none

theorem open?_eq_some {cs body : List Char} {fence : Fence}
    (h : open? cs = some (fence, body)) :
    cs = List.replicate fence.pounds '#' ++ fence.quotes ++ body := by
  have pounds : cs.takeWhile (· == '#') =
      List.replicate (cs.takeWhile (· == '#')).length '#' := by
    rw [List.eq_replicate_iff]
    refine ⟨rfl, fun c hc => ?_⟩
    simpa using List.all_eq_true.1 (List.all_takeWhile (l := cs) (p := (· == '#'))) c hc
  have whole : cs = List.replicate (cs.takeWhile (· == '#')).length '#' ++
      cs.dropWhile (· == '#') := by
    rw [← pounds, List.takeWhile_append_dropWhile]
  revert h
  simp only [open?]
  split
  · rename_i heq
    rintro ⟨⟩
    rw [heq] at whole
    simpa [quotes] using whole
  · rename_i heq
    rintro ⟨⟩
    rw [heq] at whole
    simpa [quotes] using whole
  · rintro ⟨⟩

theorem suffix_of_open? {cs body : List Char} {fence : Fence}
    (h : open? cs = some (fence, body)) : body <:+ cs :=
  ⟨_, (open?_eq_some h).symm⟩

theorem length_lt_of_open? {cs body : List Char} {fence : Fence}
    (h : open? cs = some (fence, body)) : body.length < cs.length := by
  have whole := congrArg List.length (open?_eq_some h)
  have : 0 < fence.quotes.length := by unfold quotes; split <;> simp
  simp only [List.length_append] at whole
  omega

theorem length_lt_of_closing {fence : Fence} {cs rest : List Char}
    (h : Text.after? fence.closing cs = some rest) : rest.length < cs.length := by
  have whole := congrArg List.length (Text.after?_eq_some_iff.1 h)
  have : 0 < fence.quotes.length := by unfold quotes; split <;> simp
  simp only [closing, List.length_append] at whole
  omega

theorem length_lt_of_escape {fence : Fence} {cs rest : List Char}
    (h : Text.after? fence.escape cs = some rest) : rest.length < cs.length := by
  have whole := congrArg List.length (Text.after?_eq_some_iff.1 h)
  simp only [escape, List.cons_append, List.length_cons, List.length_append] at whole
  omega

end Fence

theorem suffix_of_after? {start cs rest : List Char} (h : Text.after? start cs = some rest) :
    rest <:+ cs :=
  ⟨start, (Text.after?_eq_some_iff.1 h).symm⟩

/-- What is left of a text behind a scanned piece, or the fault in that piece. -/
abbrev Scan (cs : List Char) := Except Fault (Tail cs)

/-- Like `Scan`, with the place where scanning goes on after a fault. -/
abbrev StringScan (cs : List Char) := Except (Fault × Tail cs) (Tail cs)

def Tail.lift {cs more : List Char} (h : more <:+ cs) (t : Tail more) : Tail cs :=
  ⟨t.1, t.2.trans h⟩

def Scan.lift {cs more : List Char} (h : more <:+ cs) : Scan more → Scan cs
  | .ok t => .ok (t.lift h)
  | .error fault => .error fault

def StringScan.lift {cs more : List Char} (h : more <:+ cs) : StringScan more → StringScan cs
  | .ok t => .ok (t.lift h)
  | .error (fault, t) => .error (fault, t.lift h)

mutual

/-- Scans `cs`, the inside of a string literal that starts at `start`, past its closing fence.
A literal on one line also ends, at fault, before a line break; a fault in an interpolation takes
all that is left with it. -/
def scanString (fence : Fence) (start : List Char) (cs : List Char) : StringScan cs :=
  match cs with
  | [] => .error (⟨.openString, start, []⟩, ⟨[], List.suffix_rfl⟩)
  | c :: cs =>
    match hclose : Text.after? fence.closing (c :: cs) with
    | some rest => .ok ⟨rest, suffix_of_after? hclose⟩
    | none =>
      match hescape : Text.after? fence.escape (c :: cs) with
      | some rest =>
        have hrest := suffix_of_after? hescape
        have : rest.length < cs.length + 1 := Fence.length_lt_of_escape hescape
        if rest.head? = some '(' then
          match scanInterpolation rest 0 rest with
          | .error fault => .error (fault, ⟨[], List.nil_suffix⟩)
          | .ok ⟨more, hmore⟩ =>
            have := hmore.length_le
            (scanString fence start more).lift (hmore.trans hrest)
        else
          have hdrop := List.drop_suffix 1 rest
          have := hdrop.length_le
          (scanString fence start (rest.drop 1)).lift (hdrop.trans hrest)
      | none =>
        if !fence.multiline && (c == '\n' || c == '\r') then
          .error (⟨.openString, start, c :: cs⟩, ⟨c :: cs, List.suffix_rfl⟩)
        else (scanString fence start cs).lift (List.suffix_cons c cs)
termination_by cs.length

/-- Scans `cs`, a part of the interpolation that starts at `start` in which `depth` parentheses are
open, past its last parenthesis. -/
def scanInterpolation (start : List Char) (depth : Nat) (cs : List Char) : Scan cs :=
  match cs with
  | [] => .error ⟨.openInterpolation, start, []⟩
  | c :: cs =>
    if c = '(' then (scanInterpolation start (depth + 1) cs).lift (List.suffix_cons c cs)
    else if c = ')' then
      if depth ≤ 1 then .ok ⟨cs, List.suffix_cons c cs⟩
      else (scanInterpolation start (depth - 1) cs).lift (List.suffix_cons c cs)
    else
      match hopen : Fence.open? (c :: cs) with
      | some (fence, body) =>
        have hbody := Fence.suffix_of_open? hopen
        have : body.length < cs.length + 1 := Fence.length_lt_of_open? hopen
        match scanString fence (c :: cs) body with
        | .error (fault, _) => .error fault
        | .ok ⟨more, hmore⟩ =>
          have := hmore.length_le
          (scanInterpolation start depth more).lift (hmore.trans hbody)
      | none => (scanInterpolation start depth cs).lift (List.suffix_cons c cs)
termination_by cs.length

end

end PackageManifest.Source
