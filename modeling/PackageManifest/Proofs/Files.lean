import PackageManifest.Files

/-!
# Another content for a file

A file that is there gets another content. Paths lead where they led before, every other file stays
as it is, and what can be read can also be written.
-/

namespace PackageManifest.FileTree

theorem fromUTF8?_eq_some {bytes : ByteArray} {text : String} :
    String.fromUTF8? bytes = some text ↔ bytes = text.toUTF8 := by
  rw [String.fromUTF8?]
  constructor
  · intro h
    split at h
    · rw [← Option.some.inj h]
      rfl
    · cases h
  · rintro rfl
    exact dif_pos text.isValidUTF8

section SetFile

variable {tree : FileTree} {location other : Location} {bytes : ByteArray}

theorem file?_setFile_of_ne (hne : other ≠ location) :
    (tree.setFile location bytes).file? other = tree.file? other := by
  rw [file?, file?, setFile]
  induction tree.files with
  | nil => rfl
  | cons f files ih =>
    rw [List.map_cons, List.find?_cons, List.find?_cons]
    by_cases hf : f.1 = location
    · have hskip : (location == other) = false := by simpa using hne.symm
      simp only [hf, beq_self_eq_true, if_true, hskip]
      exact ih
    · have hkeep : (f.1 == location) = false := by simpa using hf
      simp only [hkeep, Bool.false_eq_true, if_false]
      cases f.1 == other with
      | true => rfl
      | false => exact ih

theorem file?_setFile (h : tree.isFile location = true) :
    (tree.setFile location bytes).file? location = some bytes := by
  rw [isFile, file?] at h
  rw [file?, setFile]
  revert h
  induction tree.files with
  | nil => exact fun h => nomatch h
  | cons f files ih =>
    rw [List.map_cons, List.find?_cons, List.find?_cons]
    cases hf : f.1 == location with
    | true => simp [hf]
    | false => simpa [hf] using ih

theorem isFile_setFile (h : tree.isFile location = true) :
    (tree.setFile location bytes).isFile other = tree.isFile other := by
  by_cases hother : other = location
  · rw [hother, h, isFile, file?_setFile h, Option.isSome_some]
  · rw [isFile, isFile, file?_setFile_of_ne hother]

theorem isDirectory_setFile (h : tree.isFile location = true) :
    (tree.setFile location bytes).isDirectory other = tree.isDirectory other := by
  have hfiles : (tree.setFile location bytes).files.any (fun f => other.isPrefixOf f.1) =
      tree.files.any fun f => other.isPrefixOf f.1 := by
    rw [setFile, List.any_map]
    congr 1
    funext f
    rw [Function.comp_apply]
    split <;> rfl
  rw [isDirectory, isDirectory, isFile_setFile h, hfiles]
  rfl

theorem walk_setFile (h : tree.isFile location = true) (start : Location) (names : List String) :
    (tree.setFile location bytes).walk start names = tree.walk start names := by
  induction names generalizing start with
  | nil => rfl
  | cons name names ih => simp only [walk, isFile_setFile h, isDirectory_setFile h, ih]

/-- Paths lead where they led before. -/
theorem resolve_setFile (h : tree.isFile location = true) (path : String) :
    (tree.setFile location bytes).resolve path = tree.resolve path := by
  have hlocate : (tree.setFile location bytes).locate path = tree.locate path := by
    simp only [locate, walk_setFile h]
    rfl
  simp only [resolve, hlocate, isFile_setFile h, isDirectory_setFile h]

end SetFile

section Texts

variable {tree : FileTree} {path text : String}

theorem readText_eq_ok :
    tree.readText path = .ok text ↔ ∃ location, tree.resolve path = .ok location ∧
      tree.file? location = some text.toUTF8 := by
  unfold readText
  cases tree.resolve path with
  | error e => simp
  | ok location =>
    cases hfile : tree.file? location with
    | none => simp [hfile]
    | some bytes =>
      have hutf8 := @fromUTF8?_eq_some bytes text
      cases hdecoded : String.fromUTF8? bytes with
      | none => simp_all
      | some decoded => simp_all

theorem writeText_of_readText {location : Location} (hpath : tree.resolve path = .ok location)
    (h : tree.readText path = .ok text) (new : String) :
    tree.writeText path new = .ok (tree.setFile location new.toUTF8) ∧
      (tree.setFile location new.toUTF8).readText path = .ok new := by
  obtain ⟨found, hfound, hfile⟩ := readText_eq_ok.1 h
  obtain rfl : found = location := Except.ok.inj (hfound.symm.trans hpath)
  have hisFile : tree.isFile found = true := by rw [isFile, hfile, Option.isSome_some]
  refine ⟨?_, readText_eq_ok.2 ⟨found, ?_, file?_setFile hisFile⟩⟩
  · rw [writeText, hpath]
    exact if_pos hisFile
  · rw [resolve_setFile hisFile, hpath]

theorem file?_setFile_ne_iff {location other : Location} {new : String}
    (hpath : tree.resolve path = .ok location) (h : tree.readText path = .ok text)
    (hne : new ≠ text) :
    (tree.setFile location new.toUTF8).file? other ≠ tree.file? other ↔ location = other := by
  obtain ⟨found, hfound, hfile⟩ := readText_eq_ok.1 h
  obtain rfl : found = location := Except.ok.inj (hfound.symm.trans hpath)
  have hisFile : tree.isFile found = true := by rw [isFile, hfile, Option.isSome_some]
  by_cases hother : other = found
  · have hbytes : new.toUTF8 ≠ text.toUTF8 := fun heq => hne (String.toByteArray_inj.1 heq)
    rw [hother, file?_setFile hisFile, hfile]
    simpa using hbytes
  · rw [file?_setFile_of_ne hother]
    simp [eq_comm, hother]

end Texts

end PackageManifest.FileTree
