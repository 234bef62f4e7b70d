import PackageManifest.Edit.Basic
import PackageManifest.Proofs.Lexing.Placement
import PackageManifest.Proofs.RoundTrip
import PackageManifest.Proofs.Sites

/-!
# Applying an edit

Main statement: `applyTo?_splices`. The text of the edited tree is the old one with the bytes of the
edited node cut out and the text of its replacement in their place. In the tree, all that stands
beside the way to that node stays, and the nodes on the way keep their kinds and the number of their
children.
-/

namespace PackageManifest.Source

/-- The bytes that a site covers in the text of the tree it is in. -/
def Site.span (root : Tree) (s : Site) : Span :=
  let start := Text.size (textOf (root.tokensBefore s.path))
  ⟨start, start + s.tree.size⟩

namespace Tree

variable {t s : Tree} {p q : List Nat}

/-! ## The tree -/

theorem set_self (h : t.get? p = some s) : t.set p s = t := by
  induction p generalizing t with
  | nil =>
    obtain rfl : t = s := Option.some.inj h
    cases t <;> rfl
  | cons i p ih =>
    cases t with
    | token u => cases h
    | node k cs =>
      obtain ⟨c, hc, hinner⟩ := Option.bind_eq_some_iff.1 h
      obtain ⟨left, right, rfl, hmodify⟩ := modify_at hc
      rw [set, hmodify, ih hinner]

/-- What is neither on the way to a place nor inside of it stays when something is put there. -/
theorem get?_set_of_apart (t new : Tree) (hq : ¬q <+: p) (hp : ¬p <+: q) :
    (t.set p new).get? q = t.get? q := by
  induction p generalizing t q with
  | nil => exact absurd List.nil_prefix hp
  | cons i p ih =>
    cases q with
    | nil => exact absurd List.nil_prefix hq
    | cons j q =>
      cases t with
      | token u => rfl
      | node k cs =>
        rw [set, get?, get?]
        by_cases hij : i = j
        · subst hij
          rw [List.prefix_cons_inj] at hq hp
          rw [List.getElem?_modify_eq]
          cases cs[i]? with
          | none => rfl
          | some c => exact ih c hq hp
        · rw [List.getElem?_modify_ne _ _ hij]

/-- A node on the way to a place keeps its kind and the number of its children when something is put
there. -/
theorem get?_set_above (h : t.get? p = some s) (hq : q <+: p) (hne : q ≠ p) (new : Tree) :
    ∃ kind before after, t.get? q = some (node kind before) ∧
      (t.set p new).get? q = some (node kind after) ∧ after.length = before.length := by
  obtain ⟨more, rfl⟩ := hq
  rw [get?_append] at h
  obtain ⟨above, habove, hinner⟩ := Option.bind_eq_some_iff.1 h
  cases more with
  | nil => exact absurd (List.append_nil q).symm hne
  | cons i more =>
    cases above with
    | token u => cases hinner
    | node kind children =>
      refine ⟨kind, children, children.modify i fun c => c.set more new, habove, ?_, ?_⟩
      · rw [set_append habove, get?_set habove, set]
      · exact List.length_modify ..

end Tree

end PackageManifest.Source

namespace PackageManifest.Proofs.Splicing

open Source Lexing

/-- `root'` is `root` with `new` in the place of what stands at a site. Nothing else is lost, as
`root` comes back when the old tree is put there again. -/
structure Splices (root root' : Tree) (site : Site) (new : Tree) : Prop where
  /-- The site covers the bytes of its own text. -/
  covered : root.print.toByteArray.extract (site.span root).start (site.span root).stop =
    site.tree.print.toByteArray
  text : root'.print.toByteArray = root.print.toByteArray.extract 0 (site.span root).start ++
    new.print.toByteArray ++
      root.print.toByteArray.extract (site.span root).stop root.print.utf8ByteSize
  place : root'.get? site.path = some new
  undone : root'.set site.path site.tree = root
  apart : ∀ path, ¬path <+: site.path → ¬site.path <+: path → root'.get? path = root.get? path
  above : ∀ path, path <+: site.path → path ≠ site.path → ∃ kind before after,
    root.get? path = some (.node kind before) ∧ root'.get? path = some (.node kind after) ∧
      after.length = before.length

/-! ## The text -/

section Text

variable {before text after : List Char}

theorem extract_before (text : List Char) :
    (String.ofList (before ++ text)).toByteArray.extract 0 (Text.size before) =
      (String.ofList before).toByteArray := by
  have hslice := extract_size [] before text
  rwa [List.nil_append, Text.size_nil, Nat.zero_add] at hslice

theorem extract_after (before : List Char) :
    (String.ofList (before ++ text)).toByteArray.extract (Text.size before)
        (String.ofList (before ++ text)).utf8ByteSize = (String.ofList text).toByteArray := by
  have hslice := extract_size before text []
  rw [utf8ByteSize_ofList]
  rwa [List.append_nil, ← Text.size_append] at hslice

end Text

theorem splices_set {root : Tree} {site : Site} (h : root.get? site.path = some site.tree)
    (new : Tree) : Splices root (root.set site.path new) site new := by
  obtain ⟨after, htokens, hset⟩ := Tree.tokens_set h
  let before := textOf (root.tokensBefore site.path)
  have hold : root.text = before ++ site.tree.text ++ textOf after := by
    rw [Tree.text, htokens, textOf_append, textOf_append, Tree.text]
  have hnew : (root.set site.path new).text = before ++ new.text ++ textOf after := by
    rw [Tree.text, hset, textOf_append, textOf_append, Tree.text]
  have hstop : (site.span root).stop = Text.size (before ++ site.tree.text) :=
    (Text.size_append ..).symm
  refine ⟨?_, ?_, Tree.get?_set h new, Tree.set_set h new, fun path hpath hsite => ?_,
    fun path hpath hne => ?_⟩
  · rw [Tree.print, hold]
    exact extract_size before site.tree.text (textOf after)
  · have hbefore : root.print.toByteArray.extract 0 (site.span root).start =
        (String.ofList before).toByteArray := by
      rw [Tree.print, hold, List.append_assoc]
      exact extract_before _
    have hafter : root.print.toByteArray.extract (site.span root).stop root.print.utf8ByteSize =
        (String.ofList (textOf after)).toByteArray := by
      rw [hstop, Tree.print, hold]
      exact extract_after _
    rw [hbefore, hafter, Tree.print, hnew, String.ofList_append, String.ofList_append,
      String.toByteArray_append, String.toByteArray_append, Tree.print]
  · exact Tree.get?_set_of_apart root new hpath hsite
  · exact Tree.get?_set_above h hpath hne new

/-- An edit of a node by one of its kind can be applied, and splices the new node in. It changes
nothing exactly if the two nodes are the same. -/
theorem applyTo?_splices {root new : Tree} {site : Site} {kind : NodeKind}
    (h : root.get? site.path = some site.tree) (hsite : site.tree.isNode kind = true)
    (hnew : new.isNode kind = true) :
    ∃ root', Edit.applyTo? ⟨site, new⟩ root = some root' ∧ Splices root root' site new ∧
      (Edit.isNoop ⟨site, new⟩ = true ↔ root' = root) := by
  refine ⟨root.set site.path new, ?_, splices_set h new, ?_⟩
  · rw [Edit.applyTo?, if_pos (Tree.kind_eq_of_isNode hnew hsite)]
  · rw [Edit.isNoop, beq_iff_eq]
    constructor
    · intro hsame
      rw [← show site.tree = new from hsame]
      exact Tree.set_self h
    · intro hsame
      have hplace := Tree.get?_set h new
      rw [hsame, h] at hplace
      exact Option.some.inj hplace

/-- An array behind a character of two bytes and in front of a comment. -/
theorem applyTo?_splices_inner_array :
    ∃ root array new root', parse "let é = f([1]) // é" = .ok root ∧
      root.get? array.path = some array.tree ∧ array.tree.isNode .arrayExpr = true ∧
      parseExpression "[é, 3]" = .ok new ∧ new.isNode .arrayExpr = true ∧
      array.span root = ⟨11, 14⟩ ∧ Edit.applyTo? ⟨array, new⟩ root = some root' ∧
      Splices root root' array new ∧ root'.print = "let é = f([é, 3]) // é" ∧ root' ≠ root := by
  have hrun : ((parse "let é = f([1]) // é").toOption.bind fun root =>
      (root.get? [0, 6, 1, 1, 0]).bind fun array =>
        (parseExpression "[é, 3]").toOption.bind fun new =>
          (Edit.applyTo? ⟨⟨[0, 6, 1, 1, 0], array⟩, new⟩ root).map fun root' =>
            array.isNode .arrayExpr && new.isNode .arrayExpr &&
              Site.span root ⟨[0, 6, 1, 1, 0], array⟩ == ⟨11, 14⟩ &&
                root'.print == "let é = f([é, 3]) // é" && array != new) = some true := by
    decide +kernel
  simp only [Option.bind_eq_some_iff, Option.map_eq_some_iff, Bool.and_eq_true, beq_iff_eq,
    bne_iff_ne] at hrun
  obtain ⟨root, hroot, array, hget, new, hexpr, root', happly,
    ⟨⟨⟨harray, hnew⟩, hspan⟩, hprint⟩, hne⟩ := hrun
  obtain ⟨root'', happly', hsplices, hnoop⟩ :=
    @applyTo?_splices root new ⟨[0, 6, 1, 1, 0], array⟩ .arrayExpr hget harray hnew
  obtain rfl := Option.some.inj (happly.symm.trans happly')
  refine ⟨root, ⟨[0, 6, 1, 1, 0], array⟩, new, root', RoundTrip.eq_ok_of_toOption hroot, hget,
    harray, RoundTrip.eq_ok_of_toOption hexpr, hnew, hspan, happly, hsplices, hprint, ?_⟩
  intro hsame
  exact hne (beq_iff_eq.1 (hnoop.2 hsame))

end PackageManifest.Proofs.Splicing
