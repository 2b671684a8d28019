import LosslessGo.Go.Syntax

/-!
# Kinds of syntax nodes

Each construct has a kind with a grammar name, the names of its fields in grammar order and the
way it is converted. A `Key` tells a node by its kind and span.
-/

namespace LosslessGo.Go

/-- The kind of a syntax node. -/
inductive Kind where
  | file | ident | literal | comment | commentGroup | field | fieldList
  | badExpr | ellipsis | funcLit | compositeLit | parenExpr | selectorExpr | indexExpr
  | indexListExpr | sliceExpr | typeAssertExpr | callExpr | starExpr | unaryExpr | binaryExpr
  | keyValueExpr | arrayType | structType | funcType | interfaceType | mapType | chanType
  | badStmt | declStmt | emptyStmt | labeledStmt | exprStmt | sendStmt | incDecStmt | assignStmt
  | goStmt | deferStmt | returnStmt | branchStmt | blockStmt | ifStmt | caseClause | switchStmt
  | typeSwitchStmt | commClause | selectStmt | forStmt | rangeStmt
  | importSpec | valueSpec | typeSpec | badDecl | genDecl | funcDecl
  deriving DecidableEq, Inhabited, Repr

/-- How nodes of a kind are converted. -/
inductive Shape where
  /-- Always to a node of a type of its own. -/
  | typed
  /-- To a node of a type of its own where the construct fits one, else to a native node. -/
  | typedOrNative
  /-- Always to a native node. -/
  | native
  /-- Never to a node of its own. -/
  | internal
  deriving DecidableEq, Inhabited, Repr

/-- The name of a shape. -/
def Shape.name : Shape → String
  | typed => "Typed"
  | typedOrNative => "TypedOrNative"
  | native => "Native"
  | internal => "Internal"

namespace Kind

/-- Every kind. -/
def all : List Kind :=
  [file, ident, literal, comment, commentGroup, field, fieldList,
    badExpr, ellipsis, funcLit, compositeLit, parenExpr, selectorExpr, indexExpr,
    indexListExpr, sliceExpr, typeAssertExpr, callExpr, starExpr, unaryExpr, binaryExpr,
    keyValueExpr, arrayType, structType, funcType, interfaceType, mapType, chanType,
    badStmt, declStmt, emptyStmt, labeledStmt, exprStmt, sendStmt, incDecStmt, assignStmt,
    goStmt, deferStmt, returnStmt, branchStmt, blockStmt, ifStmt, caseClause, switchStmt,
    typeSwitchStmt, commClause, selectStmt, forStmt, rangeStmt,
    importSpec, valueSpec, typeSpec, badDecl, genDecl, funcDecl]

theorem mem_all (k : Kind) : k ∈ all := by cases k <;> decide

/-- The grammar name. -/
def name : Kind → String
  | file => "File" | ident => "Ident" | literal => "BasicLit" | comment => "Comment"
  | commentGroup => "CommentGroup" | field => "Field" | fieldList => "FieldList"
  | badExpr => "BadExpr" | ellipsis => "Ellipsis" | funcLit => "FuncLit"
  | compositeLit => "CompositeLit" | parenExpr => "ParenExpr" | selectorExpr => "SelectorExpr"
  | indexExpr => "IndexExpr" | indexListExpr => "IndexListExpr" | sliceExpr => "SliceExpr"
  | typeAssertExpr => "TypeAssertExpr" | callExpr => "CallExpr" | starExpr => "StarExpr"
  | unaryExpr => "UnaryExpr" | binaryExpr => "BinaryExpr" | keyValueExpr => "KeyValueExpr"
  | arrayType => "ArrayType" | structType => "StructType" | funcType => "FuncType"
  | interfaceType => "InterfaceType" | mapType => "MapType" | chanType => "ChanType"
  | badStmt => "BadStmt" | declStmt => "DeclStmt" | emptyStmt => "EmptyStmt"
  | labeledStmt => "LabeledStmt" | exprStmt => "ExprStmt" | sendStmt => "SendStmt"
  | incDecStmt => "IncDecStmt" | assignStmt => "AssignStmt" | goStmt => "GoStmt"
  | deferStmt => "DeferStmt" | returnStmt => "ReturnStmt" | branchStmt => "BranchStmt"
  | blockStmt => "BlockStmt" | ifStmt => "IfStmt" | caseClause => "CaseClause"
  | switchStmt => "SwitchStmt" | typeSwitchStmt => "TypeSwitchStmt" | commClause => "CommClause"
  | selectStmt => "SelectStmt" | forStmt => "ForStmt" | rangeStmt => "RangeStmt"
  | importSpec => "ImportSpec" | valueSpec => "ValueSpec" | typeSpec => "TypeSpec"
  | badDecl => "BadDecl" | genDecl => "GenDecl" | funcDecl => "FuncDecl"

/-- The kind of a grammar name. -/
def ofName? (s : String) : Option Kind := all.find? (·.name == s)

/-- How nodes of the kind are converted. -/
def shape : Kind → Shape
  | genDecl | assignStmt | branchStmt | unaryExpr | binaryExpr | field => .typedOrNative
  | badExpr | badStmt | badDecl | emptyStmt | labeledStmt | sendStmt | goStmt | deferStmt
  | commClause | selectStmt | valueSpec | typeSpec | fieldList | funcType | structType
  | interfaceType | chanType => .native
  | comment | commentGroup => .internal
  | _ => .typed

/-- Whether nodes of the kind become one leaf over their whole span. -/
def isForcedLeaf : Kind → Bool
  | badExpr | badStmt | badDecl => true
  | _ => false

/-- The names of the fields, in grammar order. A token and its position count as one field. -/
def fields : Kind → List String
  | file => ["Package", "Name", "Decls"]
  | ident => ["Name"]
  | literal => ["Value"]
  | comment => ["Text"]
  | commentGroup => ["List"]
  | field => ["Names", "Type", "Tag"]
  | fieldList => ["Opening", "List", "Closing"]
  | badExpr | badStmt | badDecl => []
  | ellipsis => ["Ellipsis", "Elt"]
  | funcLit => ["Type", "Body"]
  | compositeLit => ["Type", "Lbrace", "Elts", "Rbrace"]
  | parenExpr => ["Lparen", "X", "Rparen"]
  | selectorExpr => ["X", "Sel"]
  | indexExpr => ["X", "Lbrack", "Index", "Rbrack"]
  | indexListExpr => ["X", "Lbrack", "Indices", "Rbrack"]
  | sliceExpr => ["X", "Lbrack", "Low", "High", "Max", "Rbrack"]
  | typeAssertExpr => ["X", "Lparen", "Type", "Rparen"]
  | callExpr => ["Fun", "Lparen", "Args", "Ellipsis", "Rparen"]
  | starExpr => ["Star", "X"]
  | unaryExpr => ["Op", "X"]
  | binaryExpr => ["X", "Op", "Y"]
  | keyValueExpr => ["Key", "Colon", "Value"]
  | arrayType => ["Lbrack", "Len", "Elt"]
  | structType => ["Struct", "Fields"]
  | funcType => ["Func", "TypeParams", "Params", "Results"]
  | interfaceType => ["Interface", "Methods"]
  | mapType => ["Map", "Key", "Value"]
  | chanType => ["Begin", "Arrow", "Dir", "Value"]
  | declStmt => ["Decl"]
  | emptyStmt => ["Semicolon"]
  | labeledStmt => ["Label", "Colon", "Stmt"]
  | exprStmt => ["X"]
  | sendStmt => ["Chan", "Arrow", "Value"]
  | incDecStmt => ["X", "Tok"]
  | assignStmt => ["Lhs", "Tok", "Rhs"]
  | goStmt => ["Go", "Call"]
  | deferStmt => ["Defer", "Call"]
  | returnStmt => ["Return", "Results"]
  | branchStmt => ["Tok", "Label"]
  | blockStmt => ["Lbrace", "List", "Rbrace"]
  | ifStmt => ["If", "Init", "Cond", "Body", "Else"]
  | caseClause => ["Case", "List", "Colon", "Body"]
  | switchStmt => ["Switch", "Init", "Tag", "Body"]
  | typeSwitchStmt => ["Switch", "Init", "Assign", "Body"]
  | commClause => ["Case", "Comm", "Colon", "Body"]
  | selectStmt => ["Select", "Body"]
  | forStmt => ["For", "Init", "Cond", "Post", "Body"]
  | rangeStmt => ["For", "Key", "Value", "Tok", "X", "Body"]
  | importSpec => ["Name", "Path"]
  | valueSpec => ["Names", "Type", "Values"]
  | typeSpec => ["Name", "TypeParams", "Assign", "Type"]
  | genDecl => ["Tok", "Lparen", "Specs", "Rparen"]
  | funcDecl => ["Recv", "Name", "Type", "Body"]

end Kind

/-- The identity of a syntax node: its kind and its span. -/
structure Key where
  kind : Kind
  start : Pos
  stop : Pos
  deriving DecidableEq, Inhabited, Repr

/-- `ExprStmt@3-9`. -/
def Key.text (k : Key) : String := s!"{k.kind.name}@{k.start}-{k.stop}"

end LosslessGo.Go
