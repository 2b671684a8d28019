import LosslessGo.Go.Span

/-!
# Syntax nodes field by field

A node that is converted without a construct of its own is seen as the list of its fields, in the
order of `Kind.fields`. What stands in a field is left open: a view of the tree puts keys there,
and a conversion puts what it makes of the field.

* `Children.unary` and the functions beside it lay out one construct each.
* `Expr.children`, `Stmt.children`, … are the views in keys.
-/

namespace LosslessGo.Go

/-- What a field of a syntax node holds. -/
inductive ChildSort where
  | ident | expr | stmt | spec | field | block | call | fieldList | tag
  deriving DecidableEq, Inhabited, Repr

/-- One field of a syntax node. -/
inductive Child (α : Type) where
  /-- A token of known spelling. -/
  | token (pos : Option Pos) (word : Lexeme)
  /-- A value that no text of its own stands for. -/
  | scalar
  | one (sort : ChildSort) (x : Option α)
  | many (sort : ChildSort) (xs : List α)
  deriving DecidableEq, Inhabited, Repr

/-- The fields of a syntax node, in order. -/
abbrev Children (α : Type) := List (Child α)

/-- Where the parentheses, brackets or braces of a field list come from. -/
inductive ListRole where
  | params | results | receiver | brace | typeParams
  deriving DecidableEq, Inhabited, Repr

namespace ListRole

def name : ListRole → String
  | params => "Params"
  | results => "Results"
  | receiver => "Receiver"
  | brace => "Brace"
  | typeParams => "TypeParams"

/-- Every role. -/
def all : List ListRole := [params, results, receiver, brace, typeParams]

/-- The role of a name. -/
def ofName? (s : String) : Option ListRole := all.find? (·.name == s)

/-- The delimiter that opens a list. -/
def opening : ListRole → Lexeme
  | params | results | receiver => .lparen
  | brace => .lbrace
  | typeParams => .lbrack

/-- The delimiter that closes a list. -/
def closing : ListRole → Lexeme
  | params | results | receiver => .rparen
  | brace => .rbrace
  | typeParams => .rbrack

end ListRole

namespace Children

variable {α : Type}

def field (names : List α) (type : α) (tag : Option α) : Children α :=
  [.many .ident names, .one .expr (some type), .one .tag tag]

def fieldList (role : ListRole) (opening : Option Pos) (fields : List α) (closing : Option Pos) :
    Children α :=
  [.token opening role.opening, .many .field fields, .token closing role.closing]

def funcType (func : Option Pos) (typeParams : Option α) (params : α) (results : Option α) :
    Children α :=
  [.token func .funcWord, .one .fieldList typeParams, .one .fieldList (some params),
    .one .fieldList results]

def genDecl (pos : Pos) (keyword : Lexeme) (lparen : Option Pos) (specs : List α)
    (rparen : Option Pos) : Children α :=
  [.token (some pos) keyword, .token lparen .lparen, .many .spec specs, .token rparen .rparen]

def unary (opPos : Pos) (op : Lexeme) (x : α) : Children α :=
  [.token (some opPos) op, .one .expr (some x)]

def binary (x : α) (opPos : Pos) (op : Lexeme) (y : α) : Children α :=
  [.one .expr (some x), .token (some opPos) op, .one .expr (some y)]

def structType (pos : Pos) (fields : α) : Children α :=
  [.token (some pos) .structWord, .one .fieldList (some fields)]

def interfaceType (pos : Pos) (methods : α) : Children α :=
  [.token (some pos) .interfaceWord, .one .fieldList (some methods)]

/-- The tokens of a channel type are not told apart. -/
def chanType (value : α) : Children α :=
  [.scalar, .scalar, .scalar, .one .expr (some value)]

def empty (pos : Pos) : Children α := [.token (some pos) .semicolon]

def labeled (label : α) (colon : Pos) (stmt : α) : Children α :=
  [.one .ident (some label), .token (some colon) .colon, .one .stmt (some stmt)]

def send (chan : α) (arrow : Pos) (value : α) : Children α :=
  [.one .expr (some chan), .token (some arrow) .arrow, .one .expr (some value)]

def assign (lhs : List α) (opPos : Pos) (op : Lexeme) (rhs : List α) : Children α :=
  [.many .expr lhs, .token (some opPos) op, .many .expr rhs]

def go (pos : Pos) (call : α) : Children α :=
  [.token (some pos) .goWord, .one .call (some call)]

def defer (pos : Pos) (call : α) : Children α :=
  [.token (some pos) .deferWord, .one .call (some call)]

def branch (pos : Pos) (word : Lexeme) (label : Option α) : Children α :=
  [.token (some pos) word, .one .ident label]

def commClause (pos : Pos) (comm : Option α) (colon : Pos) (body : List α) : Children α :=
  [.token (some pos) (if comm.isNone then .defaultWord else .caseWord), .one .stmt comm,
    .token (some colon) .colon, .many .stmt body]

def select (pos : Pos) (body : α) : Children α :=
  [.token (some pos) .selectWord, .one .block (some body)]

def valueSpec (names : List α) (type : Option α) (values : List α) : Children α :=
  [.many .ident names, .one .expr type, .many .expr values]

def typeSpec (name : α) (typeParams : Option α) (assign : Option Pos) (type : α) : Children α :=
  [.one .ident (some name), .one .fieldList typeParams, .token assign .assign,
    .one .expr (some type)]

end Children

/-! ## Views in keys -/

def Field.children (f : Field) : Children Key :=
  .field (f.names.map (·.key)) f.type.key (f.tag.map (·.key))

def FieldList.children (l : FieldList) (role : ListRole) : Children Key :=
  .fieldList role l.opening (l.fields.map (·.key)) l.closing

def FuncType.children (t : FuncType) : Children Key :=
  .funcType t.func (t.typeParams.map (·.key)) t.params.key (t.results.map (·.key))

def GenDecl.children (d : GenDecl) : Children Key :=
  .genDecl d.pos d.keyword d.lparen (d.specs.map (·.key)) d.rparen

/-- The fields of an expression that may be converted without a construct of its own. -/
def Expr.children : Expr → Children Key
  | .unary opPos op x => .unary opPos op x.key
  | .binary x opPos op y => .binary x.key opPos op y.key
  | .structType pos fields => .structType pos fields.key
  | .funcType type => type.children
  | .interfaceType pos methods => .interfaceType pos methods.key
  | .chanType _ _ _ value => .chanType value.key
  | _ => []

/-- The fields of a statement that may be converted without a construct of its own. -/
def Stmt.children : Stmt → Children Key
  | .empty pos _ => .empty pos
  | .labeled label colon stmt => .labeled label.key colon stmt.key
  | .send chan arrow value => .send chan.key arrow value.key
  | .assign lhs opPos op rhs => .assign (lhs.map (·.key)) opPos op (rhs.map (·.key))
  | .go pos call => .go pos call.key
  | .defer pos call => .defer pos call.key
  | .branch pos word label => .branch pos word (label.map (·.key))
  | .commClause pos comm colon body =>
    .commClause pos (comm.map (·.key)) colon (body.map (·.key))
  | .select pos body => .select pos body.key
  | _ => []

/-- The fields of a specification that may be converted without a construct of its own. -/
def Spec.children : Spec → Children Key
  | .importSpec .. => []
  | .value names typed values =>
    .valueSpec (names.map (·.key)) (typed.map (·.key)) (values.map (·.key))
  | .type name typeParams assign aliased =>
    .typeSpec name.key (typeParams.map (·.key)) assign aliased.key

/-- The fields of a declaration that may be converted without a construct of its own. -/
def Decl.children : Decl → Children Key
  | .gen d => d.children
  | _ => []

end LosslessGo.Go
