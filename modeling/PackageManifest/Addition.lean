import PackageManifest.Edit.Argument
import PackageManifest.Edit.Array
import PackageManifest.Snippet

/-!
# Adding a dependency to a manifest

The dependency is declared in the `dependencies` of the call of `Package`, unless it is declared
there already, and its products go to the `dependencies` of the first target. Each step makes at
most one edit and looks up what it needs in the edited tree. What cannot be done is left as it is
and reported.
-/

namespace PackageManifest.Addition

open Source

structure Outcome where
  tree : Tree
  changed : Bool := false
  diagnostics : List Diagnostic := []
  deriving DecidableEq, Repr

inductive Failure where
  | unparsable (error : ParseError)
  | invalidSnippet (snippet : Snippet.Invalid)
  | lostTrack (what : String)
  deriving DecidableEq, Repr

namespace Outcome

def note (o : Outcome) (d : Diagnostic) : Outcome := { o with diagnostics := o.diagnostics ++ [d] }

def apply (o : Outcome) (e : Edit) : Outcome :=
  if e.isNoop then o
  else { o with tree := (e.applyTo? o.tree).getD o.tree, changed := true }

end Outcome

def dependenciesLabel : String := "dependencies"

def targetsLabel : String := "targets"

def snippet (result : Except Snippet.Invalid Tree) : Except Failure Tree :=
  match result with
  | .ok tree => .ok tree
  | .error e => .error (.invalidSnippet e)

def relocate {α : Type} (what : String) : Option α → Except Failure α
  | some a => .ok a
  | none => .error (.lostTrack what)

def packageCall? (tree : Tree) : Option Site := tree.site.packageCall?

def argumentArray? (call : Site) (label : String) : Option Site :=
  (call.argumentValue? label.toList).filter fun value => value.tree.isNode .arrayExpr

def targets? (tree : Tree) : Option Site :=
  (packageCall? tree).bind fun call => call.argumentValue? targetsLabel.toList

def firstTarget? (tree : Tree) : Option Site :=
  match targets? tree with
  | none => none
  | some targets =>
    if targets.tree.isNode .arrayExpr then
      (targets.elements.head?.bind Site.expr?).filter fun target => target.tree.isNode .callExpr
    else none

def declaredName? (url : String) (expr : Tree) : Option String :=
  if expr.isMemberCall "package".toList then
    match expr.stringArgument? "url".toList with
    | none => none
    | some existing =>
      if Repository.normalForm existing = Repository.normalForm url.toList then
        some (String.ofList
          ((expr.stringArgument? "name".toList).getD (Repository.nameOf existing)))
      else none
  else none

def declaredIn? (url : String) (array : Tree) : Option String :=
  array.elementExprs.findSome? (declaredName? url)

def usesProduct (product package : String) (expr : Tree) : Bool :=
  expr.isMemberCall "product".toList &&
    expr.stringArgument? "name".toList == some product.toList &&
    expr.stringArgument? "package".toList == some package.toList

def containsProduct (product package : String) (array : Tree) : Bool :=
  array.elementExprs.any (usesProduct product package)

/-- What became of the `dependencies` of a call. -/
inductive Provision where
  /-- They are an array literal. -/
  | ready (outcome : Outcome)
  /-- They are something else. -/
  | otherShape
  /-- They are missing, and so is any argument behind which they could go. -/
  | noPlace (reason : Diagnostic)

/-- Sees to it that a call has an array literal for `dependencies`, behind one of the candidates. -/
def provideDependencies (layout : Layout) (o : Outcome) (call : Site) (candidates : List String) :
    Except Failure Provision :=
  match call.argument? dependenciesLabel.toList with
  | some _ =>
    if (argumentArray? call dependenciesLabel).isSome then .ok (.ready o) else .ok .otherShape
  | none =>
    match snippet Snippet.emptyArray with
    | .error e => .error e
    | .ok array =>
      match Edit.Argument.insertAfterFirst layout o.tree call candidates dependenciesLabel array
          (Edit.Argument.isMultiline call.tree) with
      | .ok edit => .ok (.ready (o.apply edit))
      | .error reason => .ok (.noPlace reason)

/-- The outcome of declaring a dependency and the name that its products go by; no name if there is
no place for the declaration. -/
structure Declaration where
  outcome : Outcome
  name : Option String

/-- Adds the declaration to the array, unless there is one for the same repository. -/
def declareIn (layout : Layout) (o : Outcome) (array : Site) (d : Dependency) :
    Except Failure Declaration :=
  match declaredIn? d.url array.tree with
  | some name => .ok ⟨o.note (.duplicatePackage d.url name), some name⟩
  | none =>
    match snippet (Snippet.packageReference d) with
    | .error e => .error e
    | .ok reference =>
      let edit :=
        if array.tree.elements.isEmpty && Edit.Array.isInline array.tree &&
            !Edit.Array.holdsComments array.tree then
          Edit.Array.reflow layout array (Edit.Array.baseLevel layout o.tree array) [reference]
        else
          Edit.Array.append layout array reference (Edit.Array.elementLevel layout o.tree array)
      .ok ⟨o.apply edit, some d.identifier⟩

def declare (layout : Layout) (o : Outcome) (call : Site) (d : Dependency) :
    Except Failure Declaration :=
  match provideDependencies layout o call ["name", "platforms"] with
  | .error e => .error e
  | .ok .otherShape =>
    .ok ⟨o.note (.structuralMismatch dependenciesLabel "an array literal"), some d.identifier⟩
  | .ok (.noPlace reason) => .ok ⟨o.note reason, none⟩
  | .ok (.ready o) =>
    match relocate "the package dependencies"
        ((packageCall? o.tree).bind fun call => argumentArray? call dependenciesLabel) with
    | .error e => .error e
    | .ok array => declareIn layout o array d

def targetArray (tree : Tree) : Except Failure Site :=
  match relocate "the first target" (firstTarget? tree) with
  | .error e => .error e
  | .ok target => relocate "the target dependencies" (argumentArray? target dependenciesLabel)

def pendingReferences (target : Site) (package : String) :
    List String → Except Failure (List Diagnostic × List Tree)
  | [] => .ok ([], [])
  | product :: products =>
    match pendingReferences target package products with
    | .error e => .error e
    | .ok (notes, references) =>
      if ((argumentArray? target dependenciesLabel).map fun array =>
          containsProduct product package array.tree).getD false then
        .ok (.alreadyWired product package :: notes, references)
      else
        match snippet (Snippet.productReference product package) with
        | .error e => .error e
        | .ok reference => .ok (notes, reference :: references)

def appendAll (layout : Layout) (level : Nat) (o : Outcome) : List Tree → Except Failure Outcome
  | [] => .ok o
  | reference :: references =>
    match targetArray o.tree with
    | .error e => .error e
    | .ok array =>
      appendAll layout level (o.apply (Edit.Array.append layout array reference level)) references

def addReferences (layout : Layout) (o : Outcome) (references : List Tree) :
    Except Failure Outcome :=
  match targetArray o.tree with
  | .error e => .error e
  | .ok array =>
    if Edit.Array.isInline array.tree && !Edit.Array.holdsComments array.tree then
      .ok (o.apply (Edit.Array.reflow layout array (Edit.Array.baseLevel layout o.tree array)
        (array.tree.elementExprs ++ references)))
    else appendAll layout (Edit.Array.elementLevel layout o.tree array) o references

def wireInto (layout : Layout) (o : Outcome) (target : Site) (package : String)
    (products : List String) : Except Failure Outcome :=
  match pendingReferences target package products with
  | .error e => .error e
  | .ok (notes, references) =>
    let o := { o with diagnostics := o.diagnostics ++ notes }
    if references.isEmpty then .ok o
    else
      match provideDependencies layout o target ["name"] with
      | .error e => .error e
      | .ok .otherShape =>
        .ok (o.note (.structuralMismatch "dependencies of the first target" "an array literal"))
      | .ok (.noPlace reason) => .ok (o.note reason)
      | .ok (.ready o) => addReferences layout o references

def wire (layout : Layout) (o : Outcome) (package : String) (products : List String) :
    Except Failure Outcome :=
  match targets? o.tree with
  | none => .ok (o.note .noTargets)
  | some targets =>
    if !targets.tree.isNode .arrayExpr then
      .ok (o.note (.structuralMismatch targetsLabel "an array literal"))
    else if targets.tree.elements.isEmpty then .ok (o.note .noTargets)
    else
      match firstTarget? o.tree with
      | none => .ok (o.note (.structuralMismatch "the first target" "a target call"))
      | some target => wireInto layout o target package products

def addWith (layout : Layout) (tree : Tree) (d : Dependency) : Except Failure Outcome :=
  let start : Outcome := { tree }
  match packageCall? tree with
  | none => .ok (start.note .noRootPackage)
  | some call =>
    match declare layout start call d with
    | .error e => .error e
    | .ok ⟨o, none⟩ => .ok o
    | .ok ⟨o, some name⟩ => wire layout o name d.products

/-- The layout of a manifest, with the given indentation if there is one. -/
def layoutOf (indent : Option IndentStyle) (tree : Tree) : Layout :=
  let detected := Layout.detect tree.text
  { detected with indent := indent.getD detected.indent }

def add (indent : Option IndentStyle) (tree : Tree) (d : Dependency) : Except Failure Outcome :=
  addWith (layoutOf indent tree) tree d

structure TextOutcome where
  text : String
  changed : Bool
  diagnostics : List Diagnostic
  deriving DecidableEq, Repr

def addText (indent : Option IndentStyle) (text : String) (d : Dependency) :
    Except Failure TextOutcome :=
  match parse text with
  | .error e => .error (.unparsable e)
  | .ok tree =>
    match add indent tree d with
    | .error e => .error e
    | .ok o => .ok ⟨o.tree.print, o.changed, o.diagnostics⟩

end PackageManifest.Addition
