import PackageManifest.Proofs.Grammar.Reading

/-!
# The trees of the expression grammar

A tree-side description of the expressions of a manifest, which mentions no parsing. Each rule is
given over the predicate `P` for the operands that may stand inside it, and `Operand` closes the
loop by the number of levels that expressions may still nest.
-/

namespace PackageManifest.Proofs.Grammar

open Source

def extendsOperand (ts : List Token) : Bool :=
  match nextKind ts with
  | .dot => true
  | .lParen | .lBracket | .lBrace => !newlineAhead ts
  | _ => false

def extendsSequence (ts : List Token) : Bool :=
  extendsOperand ts || nextKind ts == .operator

/-- Tokens of which the last one leaves no closing delimiter due, and none before it. -/
inductive Closes : List TokenKind → List Token → Prop
  | last {due : List TokenKind} {t : Token} :
      dueAfter due t.kind = some [] → Closes due [t]
  | more {due inner : List TokenKind} {close : TokenKind} {t : Token} {ts : List Token} :
      dueAfter due t.kind = some (close :: inner) → Closes (close :: inner) ts →
      Closes due (t :: ts)

inductive Block : Tree → Prop
  | intro {t : Token} {ts : List Token} :
      t.kind = .lBrace → Closes [] (t :: ts) → Block (.node .closureExpr (leaves (t :: ts)))

/-- The tokens before the value of an element: none, or those of the label of an argument. -/
inductive Label (kind : NodeKind) : List Token → Prop
  | none : Label kind []
  | some {name colon : Token} {before behind : List Token} :
      kind = .argument → name.kind.isNameLike = true → AllTrivia before →
      colon.kind = .colon → AllTrivia behind →
      Label kind (name :: before ++ colon :: behind)

section Rules

variable (P : Tree → Prop)

/-- Operators and operands behind the first operand, where `due` colons are due. -/
inductive Operations : Nat → List Tree → Prop
  | done : Operations 0 []
  | step {due : Nat} {before behind : List Token} {op : Token} {t : Tree} {more : List Tree} :
      AllTrivia before → Joins op due → AllTrivia behind → P t →
      Operations (dueBehind op due) more →
      Operations due (leaves before ++ .token op :: leaves behind ++ t :: more)

/-- One operand, or several joined by operators. -/
inductive Sequence : Tree → Prop
  | single {t : Tree} : P t → Sequence t
  | joined {first : Tree} {trees : List Tree} :
      P first → trees ≠ [] → Operations P 0 trees →
      Sequence (.node .sequenceExpr (first :: trees))

/-- An element of a list; the flag tells whether a comma ends it. -/
inductive Element (kind : NodeKind) : Bool → Tree → Prop
  | bare {label : List Token} {value : Tree} :
      Label kind label → Sequence P value →
      Element kind false (.node kind (leaves label ++ [value]))
  | separated {label before : List Token} {value : Tree} {comma : Token} :
      Label kind label → Sequence P value → AllTrivia before → comma.kind = .comma →
      Element kind true (.node kind (leaves label ++ value :: leaves before ++ [.token comma]))

/-- What stands behind the opening delimiter of a list, up to its closing one. -/
inductive Elements (kind : NodeKind) (close : TokenKind) : List Tree → Prop
  | close {before : List Token} {t : Token} :
      AllTrivia before → t.kind = close → Elements kind close (leaves before ++ [.token t])
  | last {before behind : List Token} {element : Tree} {t : Token} :
      AllTrivia before → Element P kind false element → AllTrivia behind → t.kind = close →
      Elements kind close (leaves before ++ element :: leaves behind ++ [.token t])
  | next {before : List Token} {element : Tree} {more : List Tree} :
      AllTrivia before → Element P kind true element → Elements kind close more →
      Elements kind close (leaves before ++ element :: more)

inductive Delimited (kind item : NodeKind) (opening close : TokenKind) : Tree → Prop
  | intro {t : Token} {children : List Tree} :
      t.kind = opening → Elements P item close children →
      Delimited kind item opening close (.node kind (.token t :: children))

abbrev Arguments (opening close : TokenKind) : Tree → Prop :=
  Delimited P .argumentList .argument opening close

abbrev ArrayLiteral : Tree → Prop :=
  Delimited P .arrayExpr .arrayElement .lBracket .rBracket

inductive Primary : Tree → Prop
  | leaf {t : Token} {kind : NodeKind} :
      leafKind? t.kind = some kind → Primary (.node kind [.token t])
  | member {dot name : Token} :
      dot.kind = .dot → isMemberName name = true →
      Primary (.node .memberAccessExpr [.token dot, .token name])
  | array {t : Tree} : ArrayLiteral P t → Primary t
  | tuple {list : Tree} :
      Arguments P .lParen .rParen list → Primary (.node .tupleExpr [list])
  | block {t : Tree} : Block t → Primary t
  | prefixed {op : Token} {t : Tree} :
      op.kind = .operator → P t → Primary (.node .prefixExpr [.token op, t])

def takesBlock (t : Tree) : Bool :=
  t.isNode .callExpr && (t.children.getLast?.map (Tree.isNode .argumentList)).getD false

/-- `Application P base t`: in `t`, something is applied to `base`. -/
inductive Application (base : Tree) : Tree → Prop
  | member {before : List Token} {dot name : Token} :
      AllTrivia before → dot.kind = .dot → isMemberName name = true →
      Application base
        (.node .memberAccessExpr (base :: leaves before ++ [.token dot, .token name]))
  | call {before : List Token} {list : Tree} :
      AllTrivia before → before.any Token.breaksLine = false →
      Arguments P .lParen .rParen list →
      Application base (.node .callExpr (base :: leaves before ++ [list]))
  | callWithBlock {before between : List Token} {list block : Tree} :
      AllTrivia before → before.any Token.breaksLine = false →
      Arguments P .lParen .rParen list →
      AllTrivia between → between.any Token.breaksLine = false → Block block →
      Application base
        (.node .callExpr (base :: leaves before ++ list :: leaves between ++ [block]))
  | subscript {before : List Token} {list : Tree} :
      AllTrivia before → before.any Token.breaksLine = false →
      Arguments P .lBracket .rBracket list →
      Application base (.node .subscriptExpr (base :: leaves before ++ [list]))
  | block {before : List Token} {block : Tree} :
      takesBlock base = false → AllTrivia before → before.any Token.breaksLine = false →
      Block block →
      Application base (.node .callExpr (base :: leaves before ++ [block]))

/-- An expression and what is applied to it, one after the other. A sign takes all of it for its
operand, so nothing is applied to a signed expression. -/
inductive Chain : Tree → Prop
  | primary {t : Tree} : Primary P t → Chain t
  | apply {base t : Tree} :
      Chain base → base.isNode .prefixExpr = false → Application P base t → Chain t

end Rules

/-- The operands inside which expressions nest less than `budget` deep. -/
def Operand : (budget : Nat) → Tree → Prop
  | 0 => fun _ => False
  | budget + 1 => Chain (Operand budget)

abbrev Expression : Tree → Prop := Sequence (Operand maxNesting)

end PackageManifest.Proofs.Grammar
