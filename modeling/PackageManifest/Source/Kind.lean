/-!
# Kinds of tokens and nodes

A manifest is made of tokens, some of which are trivia, and of the nodes that group them. Every
kind has a name and a number, by which a tree can be stored.
-/

namespace PackageManifest.Source

inductive TokenKind where
  | whitespace | newline | lineComment | blockComment | letKw | varKw | importKw | trueKw
  | falseKw | nilKw | ident | stringLit | numberLit | lParen | rParen | lBracket | rBracket
  | lBrace | rBrace | comma | colon | semicolon | dot | equals | operator | pound | atSign
  | backslash | unknown | eof
  deriving DecidableEq, Repr, Inhabited

inductive NodeKind where
  | sourceFile | importDecl | variableDecl | typeClause | statement | identifierExpr
  | memberAccessExpr | callExpr | argumentList | argument | arrayExpr | arrayElement
  | tupleExpr | stringLiteralExpr | numberLiteralExpr | booleanLiteralExpr | nilLiteralExpr
  | closureExpr | subscriptExpr | prefixExpr | sequenceExpr
  deriving DecidableEq, Repr, Inhabited

inductive Kind where
  | token (kind : TokenKind)
  | node (kind : NodeKind)
  deriving DecidableEq, Repr, Inhabited

namespace TokenKind

def isTrivia : TokenKind → Bool
  | whitespace | newline | lineComment | blockComment => true
  | _ => false

def isComment : TokenKind → Bool
  | lineComment | blockComment => true
  | _ => false

def isKeyword : TokenKind → Bool
  | letKw | varKw | importKw | trueKw | falseKw | nilKw => true
  | _ => false

def isNameLike (kind : TokenKind) : Bool := kind == ident || kind.isKeyword

def closing? : TokenKind → Option TokenKind
  | lParen => some rParen
  | lBracket => some rBracket
  | lBrace => some rBrace
  | _ => none

def isOpening (kind : TokenKind) : Bool := kind.closing?.isSome

def isClosing : TokenKind → Bool
  | rParen | rBracket | rBrace => true
  | _ => false

def ofWord? (word : List Char) : Option TokenKind :=
  if word = ['l', 'e', 't'] then some letKw
  else if word = ['v', 'a', 'r'] then some varKw
  else if word = ['i', 'm', 'p', 'o', 'r', 't'] then some importKw
  else if word = ['t', 'r', 'u', 'e'] then some trueKw
  else if word = ['f', 'a', 'l', 's', 'e'] then some falseKw
  else if word = ['n', 'i', 'l'] then some nilKw
  else none

def number : TokenKind → Nat
  | whitespace => 0
  | newline => 1
  | lineComment => 2
  | blockComment => 3
  | letKw => 10
  | varKw => 11
  | importKw => 12
  | trueKw => 13
  | falseKw => 14
  | nilKw => 15
  | ident => 30
  | stringLit => 31
  | numberLit => 32
  | lParen => 40
  | rParen => 41
  | lBracket => 42
  | rBracket => 43
  | lBrace => 44
  | rBrace => 45
  | comma => 46
  | colon => 47
  | semicolon => 48
  | dot => 49
  | equals => 50
  | operator => 51
  | pound => 52
  | atSign => 53
  | backslash => 54
  | unknown => 900
  | eof => 901

def name : TokenKind → String
  | whitespace => "Whitespace"
  | newline => "Newline"
  | lineComment => "LineComment"
  | blockComment => "BlockComment"
  | letKw => "LetKw"
  | varKw => "VarKw"
  | importKw => "ImportKw"
  | trueKw => "TrueKw"
  | falseKw => "FalseKw"
  | nilKw => "NilKw"
  | ident => "Ident"
  | stringLit => "StringLit"
  | numberLit => "NumberLit"
  | lParen => "LParen"
  | rParen => "RParen"
  | lBracket => "LBracket"
  | rBracket => "RBracket"
  | lBrace => "LBrace"
  | rBrace => "RBrace"
  | comma => "Comma"
  | colon => "Colon"
  | semicolon => "Semicolon"
  | dot => "Dot"
  | equals => "Equals"
  | operator => "Operator"
  | pound => "Pound"
  | atSign => "At"
  | backslash => "Backslash"
  | unknown => "Unknown"
  | eof => "Eof"

def all : List TokenKind :=
  [whitespace, newline, lineComment, blockComment, letKw, varKw, importKw, trueKw, falseKw,
   nilKw, ident, stringLit, numberLit, lParen, rParen, lBracket, rBracket, lBrace, rBrace,
   comma, colon, semicolon, dot, equals, operator, pound, atSign, backslash, unknown, eof]

end TokenKind

namespace NodeKind

def isExpr : NodeKind → Bool
  | callExpr | arrayExpr | memberAccessExpr | identifierExpr | stringLiteralExpr
  | numberLiteralExpr | booleanLiteralExpr | nilLiteralExpr | tupleExpr | closureExpr
  | subscriptExpr | prefixExpr | sequenceExpr => true
  | _ => false

def number : NodeKind → Nat
  | sourceFile => 100
  | importDecl => 101
  | variableDecl => 102
  | typeClause => 103
  | statement => 104
  | identifierExpr => 105
  | memberAccessExpr => 106
  | callExpr => 107
  | argumentList => 108
  | argument => 109
  | arrayExpr => 110
  | arrayElement => 111
  | tupleExpr => 112
  | stringLiteralExpr => 113
  | numberLiteralExpr => 114
  | booleanLiteralExpr => 115
  | nilLiteralExpr => 116
  | closureExpr => 117
  | subscriptExpr => 118
  | prefixExpr => 119
  | sequenceExpr => 120

def name : NodeKind → String
  | sourceFile => "SourceFile"
  | importDecl => "ImportDecl"
  | variableDecl => "VariableDecl"
  | typeClause => "TypeAnnotation"
  | statement => "Statement"
  | identifierExpr => "IdentifierExpr"
  | memberAccessExpr => "MemberAccessExpr"
  | callExpr => "CallExpr"
  | argumentList => "ArgumentList"
  | argument => "Argument"
  | arrayExpr => "ArrayExpr"
  | arrayElement => "ArrayElement"
  | tupleExpr => "TupleExpr"
  | stringLiteralExpr => "StringLiteralExpr"
  | numberLiteralExpr => "NumberLiteralExpr"
  | booleanLiteralExpr => "BooleanLiteralExpr"
  | nilLiteralExpr => "NilLiteralExpr"
  | closureExpr => "ClosureExpr"
  | subscriptExpr => "SubscriptExpr"
  | prefixExpr => "PrefixExpr"
  | sequenceExpr => "SequenceExpr"

def all : List NodeKind :=
  [sourceFile, importDecl, variableDecl, typeClause, statement, identifierExpr,
   memberAccessExpr, callExpr, argumentList, argument, arrayExpr, arrayElement, tupleExpr,
   stringLiteralExpr, numberLiteralExpr, booleanLiteralExpr, nilLiteralExpr, closureExpr,
   subscriptExpr, prefixExpr, sequenceExpr]

end NodeKind

namespace Kind

def number : Kind → Nat
  | token kind => kind.number
  | node kind => kind.number

def name : Kind → String
  | token kind => kind.name
  | node kind => kind.name

def all : List Kind := TokenKind.all.map token ++ NodeKind.all.map node

/-- The kind with a given number; a number that none has stands for an unknown token. -/
def ofNumber (n : Nat) : Kind := (all.find? fun kind => kind.number == n).getD (token .unknown)

/-- What a test on token kinds says of any kind: no node passes it. -/
def onToken (test : TokenKind → Bool) : Kind → Bool
  | token kind => test kind
  | node _ => false

def isNode : Kind → Bool
  | token _ => false
  | node _ => true

def isExpr : Kind → Bool
  | token _ => false
  | node kind => kind.isExpr

def closing? : Kind → Option Kind
  | token kind => kind.closing?.map token
  | node _ => none

end Kind

end PackageManifest.Source
