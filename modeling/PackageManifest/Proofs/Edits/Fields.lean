import PackageManifest.Proofs.Sites

/-!
# The arguments of a call as fields

An argument says a label and a value. Of a list of such fields, the first one with a label counts,
and an edit puts a field behind another one or gives a field another value.
-/

namespace PackageManifest.Proofs.Edits

open Source

abbrev Field := Option (List Char) × Option Tree

def field (a : Tree) : Field := (a.label?, a.expr?)

def fields (call : Tree) : List Field := call.arguments.map field

def lookup? (label : List Char) (fs : List Field) : Option Field :=
  fs.find? fun f => f.1 == some label

def insertField (label : List Char) (new : Field) : List Field → List Field
  | [] => []
  | f :: fs => if f.1 == some label then f :: new :: fs else f :: insertField label new fs

def setField (label : List Char) (value : Tree) : List Field → List Field
  | [] => []
  | f :: fs =>
    if f.1 == some label then (f.1, some value) :: fs else f :: setField label value fs

section Lists

variable {label other : List Char} {before after fs : List Field} {f : Field}

theorem lookup?_eq_some :
    lookup? label fs = some f ↔ f.1 = some label ∧ ∃ before after, fs = before ++ f :: after ∧
      ∀ g ∈ before, (g.1 == some label) = false := by
  rw [lookup?, List.find?_eq_some_iff_append, beq_iff_eq]
  simp

theorem insertField_split (new : Field) (hf : f.1 = some label)
    (hbefore : ∀ g ∈ before, (g.1 == some label) = false) :
    insertField label new (before ++ f :: after) = before ++ f :: new :: after := by
  induction before with
  | nil => rw [List.nil_append, insertField, hf, beq_self_eq_true, if_pos rfl, List.nil_append]
  | cons g before ih =>
    rw [List.cons_append, insertField, hbefore g (List.mem_cons_self ..), if_neg (by decide),
      ih fun g hg => hbefore g (List.mem_cons_of_mem _ hg), List.cons_append]

theorem setField_split (value : Tree) (hf : f.1 = some label)
    (hbefore : ∀ g ∈ before, (g.1 == some label) = false) :
    setField label value (before ++ f :: after) = before ++ (some label, some value) :: after := by
  induction before with
  | nil => rw [List.nil_append, setField, hf, beq_self_eq_true, if_pos rfl, List.nil_append]
  | cons g before ih =>
    rw [List.cons_append, setField, hbefore g (List.mem_cons_self ..), if_neg (by decide),
      ih fun g hg => hbefore g (List.mem_cons_of_mem _ hg), List.cons_append]

theorem lookup?_insertField (value : Option Tree) (hanchor : (lookup? other fs).isSome = true)
    (hnone : lookup? label fs = none) :
    lookup? label (insertField other (some label, value) fs) = some (some label, value) := by
  obtain ⟨g, hg⟩ := Option.isSome_iff_exists.1 hanchor
  obtain ⟨hother, before, after, rfl, hbefore⟩ := lookup?_eq_some.1 hg
  rw [insertField_split _ hother hbefore, List.append_cons]
  rw [lookup?, List.append_cons, List.find?_append, Option.or_eq_none_iff] at hnone
  rw [lookup?, List.find?_append, hnone.1]
  simp

theorem lookup?_insertField_of_ne {new : Field} (hne : (new.1 == some label) = false) :
    lookup? label (insertField other new fs) = lookup? label fs := by
  induction fs with
  | nil => rfl
  | cons g fs ih =>
    unfold insertField
    split
    · simp only [lookup?, List.find?_cons, hne]
    · simp only [lookup?, List.find?_cons] at ih ⊢
      rw [ih]

theorem lookup?_setField (value : Tree) (h : (lookup? label fs).isSome = true) :
    lookup? label (setField label value fs) = some (some label, some value) := by
  obtain ⟨g, hg⟩ := Option.isSome_iff_exists.1 h
  obtain ⟨hlabel, before, after, rfl, hbefore⟩ := lookup?_eq_some.1 hg
  rw [setField_split _ hlabel hbefore]
  exact lookup?_eq_some.2 ⟨rfl, before, after, rfl, hbefore⟩

theorem lookup?_setField_of_ne (value : Tree) (hne : label ≠ other) :
    lookup? label (setField other value fs) = lookup? label fs := by
  induction fs with
  | nil => rfl
  | cons g fs ih =>
    unfold setField
    split
    · rename_i hother
      have hnew : (g.1 == some label) = false := by
        rw [beq_iff_eq.1 hother]
        simpa using hne.symm
      simp only [lookup?, List.find?_cons, hnew]
    · simp only [lookup?, List.find?_cons] at ih ⊢
      rw [ih]

theorem setField_self {value : Tree} (h : (lookup? label fs).bind Prod.snd = some value) :
    setField label value fs = fs := by
  obtain ⟨⟨found, held⟩, hf, rfl⟩ := Option.bind_eq_some_iff.1 h
  obtain ⟨hlabel, before, after, rfl, hbefore⟩ := lookup?_eq_some.1 hf
  rw [setField_split _ hlabel hbefore, ← hlabel]

theorem setField_setField (first second : Tree) :
    setField label second (setField label first fs) = setField label second fs := by
  induction fs with
  | nil => rfl
  | cons g fs ih =>
    rw [setField, setField]
    split
    · rename_i hg
      rw [setField, if_pos hg]
    · rename_i hg
      rw [setField, if_neg hg, ih]

end Lists

/-! ## Looking up an argument -/

theorem argument?_field (call : Site) (label : List Char) :
    (call.argument? label).map (fun a => field a.tree) = lookup? label (fields call.tree) := by
  have := congrArg (Option.map field) (call.argument?_map label)
  rw [Option.map_map] at this
  rw [lookup?, fields, List.find?_map]
  exact this

theorem argumentValue?_field (call : Tree) (label : List Char) :
    call.argumentValue? label = (lookup? label (fields call)).bind Prod.snd := by
  rw [Tree.argumentValue?, lookup?, fields, List.find?_map, Option.bind_map]
  rfl

end PackageManifest.Proofs.Edits
