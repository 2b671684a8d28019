import LosslessGo.Go.Kind

/-!
# Where syntax nodes start and stop

The span of a node runs from its first token to the end of its last one. Where the tree does not
record the last token, the end follows from the construct: a `return` without results is six bytes
wide, and an implicit empty statement has no width.

A node without any token of its own, such as a field list without fields and delimiters, starts
and stops at 0.
-/

namespace LosslessGo.Go

/-- The number of bytes of a spelling. -/
def width (s : String) : Pos := s.utf8ByteSize.toUInt32

/-- The number of bytes of a lexeme. -/
def Lexeme.width (w : Lexeme) : Pos := w.length.toUInt32

namespace Ident

def start (x : Ident) : Pos := x.pos

def stop (x : Ident) : Pos := x.pos + width x.name

def key (x : Ident) : Key := ⟨.ident, x.start, x.stop⟩

end Ident

namespace Literal

def start (x : Literal) : Pos := x.pos

def stop (x : Literal) : Pos := x.pos + width x.text

def key (x : Literal) : Key := ⟨.literal, x.start, x.stop⟩

end Literal

namespace Comment

def start (x : Comment) : Pos := x.pos

def stop (x : Comment) : Pos := x.pos + width x.text

def key (x : Comment) : Key := ⟨.comment, x.start, x.stop⟩

end Comment

namespace Block

def start (b : Block) : Pos := b.lbrace

def stop (b : Block) : Pos := b.rbrace + 1

def key (b : Block) : Key := ⟨.blockStmt, b.start, b.stop⟩

end Block

/-! ## Starts -/

mutual

def Field.start : Field → Pos
  | ⟨names, type, _⟩ =>
    match names with
    | x :: _ => x.start
    | [] => type.start

def FieldList.start : FieldList → Pos
  | ⟨opening, fields, _⟩ =>
    match opening with
    | some p => p
    | none => startOfFields fields

/-- The start of the first field. -/
def startOfFields : List Field → Pos
  | f :: _ => f.start
  | [] => 0

def FuncType.start : FuncType → Pos
  | ⟨func, _, params, _⟩ =>
    match func with
    | some p => p
    | none => params.start

def Expr.start : Expr → Pos
  | .bad start _ => start
  | .ident x => x.start
  | .ellipsis pos _ => pos
  | .literal x => x.start
  | .funcLit type _ => type.start
  | .composite type lbrace _ _ =>
    match type with
    | some t => t.start
    | none => lbrace
  | .paren lparen _ _ => lparen
  | .selector x _ => x.start
  | .index x _ _ _ => x.start
  | .indexList x _ _ _ => x.start
  | .slice x _ _ _ _ _ _ => x.start
  | .typeAssert x _ _ _ => x.start
  | .call ⟨callee, _, _, _, _⟩ => callee.start
  | .star pos _ => pos
  | .unary opPos _ _ => opPos
  | .binary x _ _ _ => x.start
  | .keyValue key _ _ => key.start
  | .arrayType lbrack _ _ => lbrack
  | .structType pos _ => pos
  | .funcType type => type.start
  | .interfaceType pos _ => pos
  | .mapType pos _ _ => pos
  | .chanType pos _ _ _ => pos

end

def Call.start (c : Call) : Pos := c.callee.start

def GenDecl.start (d : GenDecl) : Pos := d.pos

/-- The start of the first expression. -/
def startOfExprs? (xs : List Expr) : Option Pos := xs.head?.map (·.start)

def Stmt.start : Stmt → Pos
  | .bad start _ => start
  | .decl d => d.start
  | .empty pos _ => pos
  | .labeled label _ _ => label.start
  | .expr x => x.start
  | .send chan _ _ => chan.start
  | .incDec x _ _ => x.start
  | .assign lhs opPos _ _ => (startOfExprs? lhs).getD opPos
  | .go pos _ => pos
  | .defer pos _ => pos
  | .ret pos _ => pos
  | .branch pos _ _ => pos
  | .block b => b.start
  | .ite pos _ _ _ _ => pos
  | .caseClause pos _ _ _ => pos
  | .switch pos _ _ _ => pos
  | .typeSwitch pos _ _ _ => pos
  | .commClause pos _ _ _ => pos
  | .select pos _ => pos
  | .forLoop pos _ _ _ _ => pos
  | .range pos _ _ _ _ _ _ _ => pos

def Spec.start : Spec → Pos
  | .importSpec name path _ => (name.map Ident.start).getD path.start
  | .value names _ _ => (names.head?.map Ident.start).getD 0
  | .type name _ _ _ => name.start

def Decl.start : Decl → Pos
  | .bad start _ => start
  | .gen d => d.start
  | .func _ _ type _ => type.start

def File.start (f : File) : Pos := f.packagePos

/-! ## Stops -/

def Call.stop (c : Call) : Pos := c.rparen + 1

mutual

def Field.stop : Field → Pos
  | ⟨_, type, tag⟩ =>
    match tag with
    | some t => t.stop
    | none => type.stop

def FieldList.stop : FieldList → Pos
  | ⟨_, fields, closing⟩ =>
    match closing with
    | some p => p + 1
    | none => stopOfFields fields

/-- The stop of the last field. -/
def stopOfFields : List Field → Pos
  | [] => 0
  | [f] => f.stop
  | _ :: f :: fs => stopOfFields (f :: fs)

def FuncType.stop : FuncType → Pos
  | ⟨_, _, params, results⟩ =>
    match results with
    | some r => r.stop
    | none => params.stop

def Expr.stop : Expr → Pos
  | .bad _ stop => stop
  | .ident x => x.stop
  | .ellipsis pos elem =>
    match elem with
    | some e => e.stop
    | none => pos + 3
  | .literal x => x.stop
  | .funcLit _ body => body.stop
  | .composite _ _ _ rbrace => rbrace + 1
  | .paren _ _ rparen => rparen + 1
  | .selector _ name => name.stop
  | .index _ _ _ rbrack => rbrack + 1
  | .indexList _ _ _ rbrack => rbrack + 1
  | .slice _ _ _ _ _ _ rbrack => rbrack + 1
  | .typeAssert _ _ _ rparen => rparen + 1
  | .call c => c.stop
  | .star _ x => x.stop
  | .unary _ _ x => x.stop
  | .binary _ _ _ y => y.stop
  | .keyValue _ _ value => value.stop
  | .arrayType _ _ elem => elem.stop
  | .structType _ fields => fields.stop
  | .funcType type => type.stop
  | .interfaceType _ methods => methods.stop
  | .mapType _ _ value => value.stop
  | .chanType _ _ _ value => value.stop

end

/-- The stop of the last expression. -/
def stopOfExprs? (xs : List Expr) : Option Pos := xs.getLast?.map (·.stop)

def Spec.stop : Spec → Pos
  | .importSpec _ path stop => stop.getD path.stop
  | .value names typed values =>
    ((stopOfExprs? values).or (typed.map (·.stop))).getD ((names.getLast?.map Ident.stop).getD 0)
  | .type _ _ _ aliased => aliased.stop

/-- Without a closing parenthesis a declaration has one specification. -/
def GenDecl.stop (d : GenDecl) : Pos :=
  match d.rparen, d.specs with
  | some p, _ => p + 1
  | none, s :: _ => s.stop
  | none, [] => d.pos + d.keyword.width

mutual

def Stmt.stop : Stmt → Pos
  | .bad _ stop => stop
  | .decl d => d.stop
  | .empty pos implicit => if implicit then pos else pos + 1
  | .labeled _ _ stmt => stmt.stop
  | .expr x => x.stop
  | .send _ _ value => value.stop
  | .incDec _ opPos _ => opPos + 2
  | .assign _ opPos op rhs => (stopOfExprs? rhs).getD (opPos + op.width)
  | .go _ call => call.stop
  | .defer _ call => call.stop
  | .ret pos results => (stopOfExprs? results).getD (pos + 6)
  | .branch pos word label => (label.map Ident.stop).getD (pos + word.width)
  | .block b => b.stop
  | .ite _ _ _ body otherwise =>
    match otherwise with
    | some s => s.stop
    | none => body.stop
  | .caseClause _ _ colon body => stopOfStmts (colon + 1) body
  | .switch _ _ _ body => body.stop
  | .typeSwitch _ _ _ body => body.stop
  | .commClause _ _ colon body => stopOfStmts (colon + 1) body
  | .select _ body => body.stop
  | .forLoop _ _ _ _ body => body.stop
  | .range _ _ _ _ _ _ _ body => body.stop

/-- The stop of the last statement, or `empty` where there is none. -/
def stopOfStmts (empty : Pos) : List Stmt → Pos
  | [] => empty
  | [s] => s.stop
  | _ :: s :: ss => stopOfStmts empty (s :: ss)

end

def Decl.stop : Decl → Pos
  | .bad _ stop => stop
  | .gen d => d.stop
  | .func _ _ type body => (body.map Block.stop).getD type.stop

def File.stop (f : File) : Pos := (f.decls.getLast?.map Decl.stop).getD f.name.stop

/-! ## Keys -/

def Expr.kind : Expr → Kind
  | .bad .. => .badExpr
  | .ident _ => .ident
  | .ellipsis .. => .ellipsis
  | .literal _ => .literal
  | .funcLit .. => .funcLit
  | .composite .. => .compositeLit
  | .paren .. => .parenExpr
  | .selector .. => .selectorExpr
  | .index .. => .indexExpr
  | .indexList .. => .indexListExpr
  | .slice .. => .sliceExpr
  | .typeAssert .. => .typeAssertExpr
  | .call _ => .callExpr
  | .star .. => .starExpr
  | .unary .. => .unaryExpr
  | .binary .. => .binaryExpr
  | .keyValue .. => .keyValueExpr
  | .arrayType .. => .arrayType
  | .structType .. => .structType
  | .funcType _ => .funcType
  | .interfaceType .. => .interfaceType
  | .mapType .. => .mapType
  | .chanType .. => .chanType

def Stmt.kind : Stmt → Kind
  | .bad .. => .badStmt
  | .decl _ => .declStmt
  | .empty .. => .emptyStmt
  | .labeled .. => .labeledStmt
  | .expr _ => .exprStmt
  | .send .. => .sendStmt
  | .incDec .. => .incDecStmt
  | .assign .. => .assignStmt
  | .go .. => .goStmt
  | .defer .. => .deferStmt
  | .ret .. => .returnStmt
  | .branch .. => .branchStmt
  | .block _ => .blockStmt
  | .ite .. => .ifStmt
  | .caseClause .. => .caseClause
  | .switch .. => .switchStmt
  | .typeSwitch .. => .typeSwitchStmt
  | .commClause .. => .commClause
  | .select .. => .selectStmt
  | .forLoop .. => .forStmt
  | .range .. => .rangeStmt

def Spec.kind : Spec → Kind
  | .importSpec .. => .importSpec
  | .value .. => .valueSpec
  | .type .. => .typeSpec

def Decl.kind : Decl → Kind
  | .bad .. => .badDecl
  | .gen _ => .genDecl
  | .func .. => .funcDecl

def Field.key (f : Field) : Key := ⟨.field, f.start, f.stop⟩

def FieldList.key (l : FieldList) : Key := ⟨.fieldList, l.start, l.stop⟩

def FuncType.key (t : FuncType) : Key := ⟨.funcType, t.start, t.stop⟩

def Call.key (c : Call) : Key := ⟨.callExpr, c.start, c.stop⟩

def GenDecl.key (d : GenDecl) : Key := ⟨.genDecl, d.start, d.stop⟩

def Expr.key (x : Expr) : Key := ⟨x.kind, x.start, x.stop⟩

def Stmt.key (s : Stmt) : Key := ⟨s.kind, s.start, s.stop⟩

def Spec.key (s : Spec) : Key := ⟨s.kind, s.start, s.stop⟩

def Decl.key (d : Decl) : Key := ⟨d.kind, d.start, d.stop⟩

def File.key (f : File) : Key := ⟨.file, f.start, f.stop⟩

end LosslessGo.Go
