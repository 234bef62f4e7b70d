import PackageManifest.Source.Token

/-!
# Lossless trees

A tree holds every token of a text, trivia included, so its text is that of its tokens. A node is
addressed by the path of child positions that leads to it from the root.
-/

namespace PackageManifest.Source

inductive Tree where
  | token (t : Token)
  | node (kind : NodeKind) (children : List Tree)
  deriving Repr, Inhabited

namespace Tree

mutual

def decEq : (a b : Tree) → Decidable (a = b)
  | token t, token u =>
    if h : t = u then isTrue (h ▸ rfl) else isFalse fun e => h (token.inj e)
  | token _, node _ _ => isFalse nofun
  | node _ _, token _ => isFalse nofun
  | node k cs, node l ds =>
    if h : k = l then
      match decEqList cs ds with
      | isTrue e => isTrue (h ▸ e ▸ rfl)
      | isFalse e => isFalse fun eq => e (node.inj eq).2
    else isFalse fun e => h (node.inj e).1

def decEqList : (as bs : List Tree) → Decidable (as = bs)
  | [], [] => isTrue rfl
  | [], _ :: _ => isFalse nofun
  | _ :: _, [] => isFalse nofun
  | a :: as, b :: bs =>
    match decEq a b with
    | isFalse e => isFalse fun eq => e (List.cons.inj eq).1
    | isTrue e =>
      match decEqList as bs with
      | isFalse e' => isFalse fun eq => e' (List.cons.inj eq).2
      | isTrue e' => isTrue (e ▸ e' ▸ rfl)

end

instance : DecidableEq Tree := decEq

mutual

def tokens : Tree → List Token
  | token t => [t]
  | node _ children => tokensList children

def tokensList : List Tree → List Token
  | [] => []
  | c :: cs => c.tokens ++ tokensList cs

end

@[simp] theorem tokens_token (t : Token) : (token t).tokens = [t] := rfl

@[simp] theorem tokens_node (kind : NodeKind) (children : List Tree) :
    (node kind children).tokens = tokensList children := rfl

@[simp] theorem tokensList_nil : tokensList [] = [] := rfl

@[simp] theorem tokensList_cons (c : Tree) (cs : List Tree) :
    tokensList (c :: cs) = c.tokens ++ tokensList cs := rfl

@[simp] theorem tokensList_append (as bs : List Tree) :
    tokensList (as ++ bs) = tokensList as ++ tokensList bs := by
  induction as with
  | nil => rfl
  | cons a as ih => simp [ih]

@[simp] theorem tokensList_map_token (ts : List Token) : tokensList (ts.map token) = ts := by
  induction ts with
  | nil => rfl
  | cons t ts ih => simp [ih]

def text (t : Tree) : List Char := textOf t.tokens

/-- The text of a tree, which for a parsed one is the input. -/
def print (t : Tree) : String := String.ofList t.text

def size (t : Tree) : Nat := Text.size t.text

def kind : Tree → Kind
  | token t => .token t.kind
  | node k _ => .node k

def children : Tree → List Tree
  | token _ => []
  | node _ cs => cs

def isNode (k : NodeKind) (t : Tree) : Bool := t.kind == .node k

def isToken (k : TokenKind) (t : Tree) : Bool := t.kind == .token k

def isExpr (t : Tree) : Bool := t.kind.isExpr

def isTrivia (t : Tree) : Bool := t.kind.onToken TokenKind.isTrivia

def isComment (t : Tree) : Bool := t.kind.onToken TokenKind.isComment

def token? : Tree → Option Token
  | token t => some t
  | node _ _ => none

def firstToken? (t : Tree) : Option Token := t.tokens.head?

def get? : Tree → List Nat → Option Tree
  | t, [] => some t
  | token _, _ :: _ => none
  | node _ cs, i :: path => cs[i]?.bind fun c => c.get? path

def set : Tree → List Nat → Tree → Tree
  | _, [], new => new
  | token t, _ :: _, _ => token t
  | node k cs, i :: path, new => node k (cs.modify i fun c => c.set path new)

/-- The tokens left of what stands at the end of a path. -/
def tokensBefore : Tree → List Nat → List Token
  | _, [] => []
  | token _, _ :: _ => []
  | node _ cs, i :: path =>
    tokensList (cs.take i) ++ ((cs[i]?.map fun c => c.tokensBefore path).getD [])

end Tree

structure Site where
  path : List Nat
  tree : Tree
  deriving DecidableEq, Repr, Inhabited

namespace Site

def children (s : Site) : List Site :=
  s.tree.children.zipIdx.map fun (c, i) => ⟨s.path ++ [i], c⟩

def child? (s : Site) (p : Tree → Bool) : Option Site := s.children.find? fun c => p c.tree

end Site

namespace Tree

mutual

def sitesAt (path : List Nat) : Tree → List Site
  | token _ => []
  | node k cs => ⟨path, node k cs⟩ :: sitesAtList path 0 cs

def sitesAtList (path : List Nat) (i : Nat) : List Tree → List Site
  | [] => []
  | c :: cs => c.sitesAt (path ++ [i]) ++ sitesAtList path (i + 1) cs

end

def sites (t : Tree) : List Site := t.sitesAt []

def site (t : Tree) : Site := ⟨[], t⟩

end Tree

end PackageManifest.Source
