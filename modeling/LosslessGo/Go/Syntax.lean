import LosslessGo.Go.Lexeme

/-!
# Syntax trees of Go

The tree of one parsed file: one constructor or structure per construct of the grammar.
Positions are byte offsets into the source; an absent position is a token the source does not
show, such as the parentheses of an ungrouped declaration.
-/

namespace LosslessGo.Go

/-- A byte offset into a source file. -/
abbrev Pos := UInt32

/-- A name, with the position of the name that declares it where the parser knows it. -/
structure Ident where
  pos : Pos
  name : String
  decl : Option Pos
  deriving DecidableEq, Inhabited, Repr

inductive LiteralKind where
  | int | float | imaginary | char | string
  deriving DecidableEq, Inhabited, Repr

/-- A literal as written, quotes included, without the carriage returns of a raw string. -/
structure Literal where
  pos : Pos
  kind : LiteralKind
  text : String
  deriving DecidableEq, Inhabited, Repr

structure Comment where
  pos : Pos
  text : String
  deriving DecidableEq, Inhabited, Repr

/-- Comments with nothing but blanks between them. -/
abbrev CommentGroup := List Comment

inductive ChanDir where
  | both | send | recv
  deriving DecidableEq, Inhabited, Repr

mutual

/-- Names of one type: parameters, results, struct fields, interface methods. -/
structure Field where
  names : List Ident
  type : Expr
  tag : Option Literal

/-- Fields between delimiters. -/
structure FieldList where
  opening : Option Pos
  fields : List Field
  closing : Option Pos

/-- A signature; an interface method has no `func` keyword. -/
structure FuncType where
  func : Option Pos
  typeParams : Option FieldList
  params : FieldList
  results : Option FieldList

/-- Statements between braces. -/
structure Block where
  lbrace : Pos
  stmts : List Stmt
  rbrace : Pos

structure Call where
  callee : Expr
  lparen : Pos
  args : List Expr
  ellipsis : Option Pos
  rparen : Pos

/-- A declaration that starts with `import`, `const`, `type` or `var`. -/
structure GenDecl where
  pos : Pos
  keyword : Lexeme
  lparen : Option Pos
  specs : List Spec
  rparen : Option Pos

inductive Expr where
  | bad (start stop : Pos)
  | ident (x : Ident)
  | ellipsis (pos : Pos) (elem : Option Expr)
  | literal (x : Literal)
  | funcLit (type : FuncType) (body : Block)
  | composite (type : Option Expr) (lbrace : Pos) (elems : List Expr) (rbrace : Pos)
  | paren (lparen : Pos) (x : Expr) (rparen : Pos)
  | selector (x : Expr) (name : Ident)
  | index (x : Expr) (lbrack : Pos) (i : Expr) (rbrack : Pos)
  | indexList (x : Expr) (lbrack : Pos) (indices : List Expr) (rbrack : Pos)
  | slice (x : Expr) (lbrack : Pos) (low high max : Option Expr) (full : Bool) (rbrack : Pos)
  /-- Without a type, the `x.(type)` of a type switch. -/
  | typeAssert (x : Expr) (lparen : Pos) (type : Option Expr) (rparen : Pos)
  | call (c : Call)
  | star (pos : Pos) (x : Expr)
  | unary (opPos : Pos) (op : Lexeme) (x : Expr)
  | binary (x : Expr) (opPos : Pos) (op : Lexeme) (y : Expr)
  | keyValue (key : Expr) (colon : Pos) (value : Expr)
  /-- Without a length, a slice type. -/
  | arrayType (lbrack : Pos) (len : Option Expr) (elem : Expr)
  | structType (pos : Pos) (fields : FieldList)
  | funcType (type : FuncType)
  | interfaceType (pos : Pos) (methods : FieldList)
  | mapType (pos : Pos) (key value : Expr)
  | chanType (pos : Pos) (arrow : Option Pos) (dir : ChanDir) (value : Expr)

inductive Stmt where
  | bad (start stop : Pos)
  | decl (d : GenDecl)
  /-- An implicit empty statement has no semicolon in the source. -/
  | empty (pos : Pos) (implicit : Bool)
  | labeled (label : Ident) (colon : Pos) (stmt : Stmt)
  | expr (x : Expr)
  | send (chan : Expr) (arrow : Pos) (value : Expr)
  | incDec (x : Expr) (opPos : Pos) (op : Lexeme)
  | assign (lhs : List Expr) (opPos : Pos) (op : Lexeme) (rhs : List Expr)
  | go (pos : Pos) (call : Call)
  | defer (pos : Pos) (call : Call)
  | ret (pos : Pos) (results : List Expr)
  | branch (pos : Pos) (word : Lexeme) (label : Option Ident)
  | block (b : Block)
  | ite (pos : Pos) (init : Option Stmt) (cond : Expr) (body : Block) (otherwise : Option Stmt)
  /-- Without expressions, the `default` clause. -/
  | caseClause (pos : Pos) (exprs : List Expr) (colon : Pos) (body : List Stmt)
  | switch (pos : Pos) (init : Option Stmt) (tag : Option Expr) (body : Block)
  | typeSwitch (pos : Pos) (init : Option Stmt) (assign : Stmt) (body : Block)
  /-- Without a statement, the `default` clause. -/
  | commClause (pos : Pos) (comm : Option Stmt) (colon : Pos) (body : List Stmt)
  | select (pos : Pos) (body : Block)
  | forLoop (pos : Pos) (init : Option Stmt) (cond : Option Expr) (post : Option Stmt)
      (body : Block)
  | range (pos : Pos) (key value : Option Expr) (opPos : Option Pos) (op : Option Lexeme)
      (rangePos : Pos) (x : Expr) (body : Block)

inductive Spec where
  | importSpec (name : Option Ident) (path : Literal) (stop : Option Pos)
  | value (names : List Ident) (type : Option Expr) (values : List Expr)
  /-- With an `=`, an alias. -/
  | type (name : Ident) (typeParams : Option FieldList) (assign : Option Pos) (type : Expr)

end

inductive Decl where
  | bad (start stop : Pos)
  | gen (d : GenDecl)
  /-- Without a body, a function implemented elsewhere. -/
  | func (recv : Option FieldList) (name : Ident) (type : FuncType) (body : Option Block)

/-- A parsed file, with all its comments in source order. -/
structure File where
  packagePos : Pos
  name : Ident
  decls : List Decl
  comments : List CommentGroup

end LosslessGo.Go
