import LosslessGo.Go.Schema
import LosslessGo.Plan.Basic
import LosslessGo.Plan.Operators
import LosslessGo.Symbol.Facts

/-!
# Plans for Go

Every construct of the grammar has its plan. Most get a node of a type of its own, with fields
that name its parts; where such a node cannot be made, or the construct has no type, its fields
are converted one by one as the schema says (`Plan.native`).

* `Plan.ofIdent`, `Plan.ofLiteral`: the leaves.
* `Plan.ofExpr`, `Plan.ofStmt`, `Plan.ofGenDecl` and the functions beside them: the constructs.
* `Plan.ofFile`: a whole file.
-/

namespace LosslessGo.Plan

open Go

/-! ## Constructs without a type -/

/-- What the schema makes of a field. -/
def childSteps (kind : Kind) (name : String) (c : Child Plan) : List Step :=
  match ruleOf kind name, c with
  | .skip, _ | _, .scalar => []
  | _, .token pos word => [.one name (.lexeme pos word)]
  | _, .one _ x => (x.map fun p => Step.one name p).toList
  | .wrapped label, .many _ ps => [.one name (.group label [.together (itemParts name ps)])]
  | _, .many _ ps => [.together (itemParts name ps)]

/-- A node that has the fields of a syntax node as its children. -/
def native (key : Key) (children : Children Plan) : Plan :=
  .node .shared ⟨some key, .native, nativeFields (.within key.kind.name)⟩ none
    ((key.kind.fields.zip children).flatMap fun (name, c) => childSteps key.kind name c)

/-- A node of a construct, or a node without a type where the construct does not give one. -/
def orNative (key : Key) (type : NodeType) (fields : List (String × FieldPlan))
    (steps : List Step) (children : Children Plan) : Plan :=
  .firstOf (.typed key type fields steps) (.native key children)

/-- A string value. -/
def text (s : String) : FieldPlan := .given (.str s)

/-! ## Leaves -/

/-- The fields of an identifier. -/
def identFields (facts : Facts) (x : Ident) : List (String × FieldPlan) :=
  ("name", text x.name) ::
    match facts.identifier x with
    | some info => [("id", .given (.int info.id)), ("type", text info.type),
        ("package", text info.package)]
    | none => []

/-- An identifier; `true`, `false` and `nil` are literals, and `_` is a placeholder. -/
def ofIdent (facts : Facts) (x : Ident) : Plan :=
  if x.name = "true" ∨ x.name = "false" ∨ x.name = "nil" then
    .typed x.key .literal [("value", text x.name)] []
  else if x.name = "_" then
    .typed x.key .placeHolder [("placeHolderToken", .range "PlaceHolder")]
      [.one "PlaceHolder" (.leaf x.pos "_" .keyword (.token .label))]
  else .typed x.key .identifier (identFields facts x) []

/-- A literal that stays a plain token. -/
def plainLiteral (x : Literal) : Plan := .leaf x.pos x.text .other (.token (.within "BasicLit"))

/-- A literal with a type of its own. -/
def typedLiteral (x : Literal) (type : NodeType) : Plan :=
  .leaf x.pos x.text .other (.typed type (.ofList [("value", .str x.text)]))

/-- The byte that encloses raw strings. -/
def rawQuote : UInt8 := 96

/-- The text between the first byte and the last. -/
def unquoted (s : String) : String := Text.slice s 1 (s.utf8ByteSize - 1)

/-- A literal; raw strings and characters stay plain tokens. -/
def ofLiteral (x : Literal) : Plan :=
  match x.kind with
  | .string =>
    if Text.byteAt? x.text 0 = some rawQuote then plainLiteral x
    else
      .leaf x.pos x.text .string (.typed .stringLiteral
        (.ofList [("content", .str (unquoted x.text)), ("value", .str x.text)]))
  | .char => plainLiteral x
  | .int => typedLiteral x .integerLiteral
  | .float => typedLiteral x .floatLiteral
  | .imaginary => typedLiteral x .imaginaryLiteral

/-! ## Parameters -/

/-- A parameter, with its type where the parameter carries one. -/
def parameter (facts : Facts) (x : Ident) (type : Plan) : Plan :=
  .typed x.key .parameter [("identifier", .part "Name"), ("type", .part "Type")]
    [.together [⟨"Name", "Name", ofIdent facts x⟩, ⟨"Type", "Type", type⟩]]

/-- One parameter for each name; the last one carries the type. -/
def parameters (facts : Facts) (type : Plan) : List Ident → List Plan
  | [] => []
  | [x] => [parameter facts x type]
  | x :: y :: xs => parameter facts x .absent :: parameters facts type (y :: xs)

/-- A field in a list of a role. Named fields of a parameter list become parameters. -/
def field (facts : Facts) (role : ListRole) (key : Key) (names : List Ident) (type : Plan)
    (tag : Option Literal) : Plan :=
  if role = .params ∧ names ≠ [] then
    .node .shared ⟨some key, .native, nativeFields (.within key.kind.name)⟩ none
      (itemSteps "Names" (parameters facts type names))
  else .native key (.field (names.map (ofIdent facts)) type (tag.map plainLiteral))

/-! ## Declarations -/

/-- The planned parts of a specification. -/
inductive SpecParts where
  | importSpec (p : Plan)
  | value (key : Key) (names : List Plan) (type : Option Plan) (values : List Plan)
  | type (key : Key) (name : Plan) (typeParams : Option Plan) (assign : Option Pos)
      (aliased : Plan)

/-- A specification by itself. -/
def SpecParts.whole : SpecParts → Plan
  | .importSpec p => p
  | .value key names typed values => .native key (.valueSpec names typed values)
  | .type key name typeParams assign aliased =>
    .native key (.typeSpec name typeParams assign aliased)

/-- An import, with its name where it has one. -/
def importSpec (facts : Facts) (key : Key) (name : Option Ident) (path : Literal) : Plan :=
  .typed key .importSpecification [("name", .part "Name"), ("path", .part "Path")]
    [.one "Name" (.option (name.map (ofIdent facts))), .one "Path" (ofLiteral path)]

/-- A declaration with a type of its own: imports, a single type without parentheses, and a single
constant or variable specification. -/
def typedDecl? (d : GenDecl) (specs : List SpecParts) : Option Plan :=
  let keyword := Step.one "Tok" (.lexeme d.pos d.keyword)
  let lparen := Step.one "Lparen" (.lexeme d.lparen .lparen)
  let rparen := Step.one "Rparen" (.lexeme d.rparen .rparen)
  match d.keyword, d.lparen, specs with
  | .importWord, _, _ =>
    some (.typed d.key .importDeclaration [("children", .nodes [.own])]
      ([keyword, lparen] ++ itemSteps "Specs" (specs.map (·.whole)) ++ [rparen]))
  | .typeWord, none, [.type key name typeParams assign aliased] =>
    some (.node .shared ⟨some key, .native, nativeFields (.within "TypeSpecWrapped")⟩
      (some ⟨some key, .classDeclaration, [("identifier", .range "Name"), ("classTree", .core)]⟩)
      [keyword, .one "Name" name, .one "TypeParams" (.option typeParams),
        .one "Assign" (.lexeme assign .assign), .one "Type" aliased])
  | .constWord, _, [.value _ names type values] | .varWord, _, [.value _ names type values] =>
    some (.typed d.key .variableDeclaration
      [("isVal", .given (.bool (d.keyword = .constWord))),
        ("identifiers", .nodes [.made "Names"]), ("type", .part "Type"),
        ("initializers", .nodes [.made "Values"])]
      ([keyword, lparen] ++ itemSteps "Names" names ++ [.one "Type" (.option type)] ++
        itemSteps "Values" values ++ [rparen]))
  | _, _, _ => none

/-- A declaration. -/
def genDecl (d : GenDecl) (specs : List SpecParts) : Plan :=
  let whole := .native d.key
    (.genDecl d.pos d.keyword d.lparen (specs.map (·.whole)) d.rparen)
  match typedDecl? d specs with
  | some p => .firstOf p whole
  | none => whole

/-! ## Assignments -/

/-- One side of an assignment; several expressions are put under one node. -/
def handSide : List Plan → Plan
  | [] => .absent
  | [p] => p
  | ps =>
    .node .shared ⟨none, .leftRightHandSide, [("children", .nodes [.own])]⟩ none
      (itemSteps "List" ps)

/-- An assignment, or a definition of variables. -/
def assign (key : Key) (lhs : List Plan) (opPos : Pos) (op : Lexeme) (rhs : List Plan) : Plan :=
  let tok := Step.one "Tok" (.lexeme opPos op)
  let children := Children.assign lhs opPos op rhs
  if op = .define then
    orNative key .variableDeclaration
      [("isVal", .given (.bool false)), ("identifiers", .nodes [.made "Lhs"]),
        ("type", .given .null), ("initializers", .nodes [.made "Rhs"])]
      (itemSteps "Lhs" lhs ++ [tok] ++ itemSteps "Rhs" rhs) children
  else
    match op.assignName? with
    | some name =>
      orNative key .assignmentExpression
        [("operator", text name), ("leftHandSide", .part "Lhs"),
          ("statementOrExpression", .part "Rhs")]
        [.tagged "Lhs" (itemLabel 0) (handSide lhs), tok,
          .tagged "Rhs" (itemLabel 0) (handSide rhs)] children
    | none => .native key children

/-! ## Switches -/

/-- A switch: its keyword, what it looks at and its clauses. The keyword and the header are made
before either is gathered. -/
def switch (key : Key) (pos : Pos) (header body : Plan) : Plan :=
  orNative key .matchOf
    [("keyword", .range "Switch"), ("expression", .part "Header"), ("cases", .cases "Body")]
    [.together [⟨"Switch", "Switch", .lexeme pos .switchWord⟩, ⟨"Header", "Header", header⟩],
      .one "Body" body] []

/-! ## Functions -/

/-- A function literal. -/
def funcLit (key : Key) (func : Option Pos) (typeParams : Option Plan) (params : Plan)
    (results : Option Plan) (body : Plan) (blocks : List Flow.Block) : Plan :=
  .firstOf
    (.node (.own (some blocks))
      ⟨some key, .functionDeclaration,
        [("formalParameters", .parameters "Params"), ("returnType", .part "Results"),
          ("typeParameters", .part "TypeParams"), ("body", .part "Body"),
          ("receiver", .given .null), ("cfg", .graph)]⟩ none
      [.tagged "Func" "Type.Func" (.lexeme func .funcWord), .one "Params" params,
        .one "Results" (.option results), .one "TypeParams" (.option typeParams),
        .one "Body" body])
    (.native key [])

/-! ## Constructs -/

mutual

/-- A field list of a role, without its parentheses where the source shows none. -/
def ofFieldList (facts : Facts) (role : ListRole) : FieldList → Plan
  | ⟨opening, fields, closing⟩ =>
    .native (FieldList.key ⟨opening, fields, closing⟩)
      (.fieldList role opening (ofFields facts role fields) closing)

def ofOptionFieldList (facts : Facts) (role : ListRole) : Option FieldList → Option Plan
  | none => none
  | some l => some (ofFieldList facts role l)

def ofFields (facts : Facts) (role : ListRole) : List Field → List Plan
  | [] => []
  | ⟨names, type, tag⟩ :: fields =>
    field facts role (Field.key ⟨names, type, tag⟩) names (ofExpr facts type) tag ::
      ofFields facts role fields

/-- A function type as a type expression. -/
def ofFuncType (facts : Facts) : FuncType → Plan
  | ⟨func, typeParams, params, results⟩ =>
    .native (FuncType.key ⟨func, typeParams, params, results⟩)
      (.funcType func
        (ofOptionFieldList facts (roleOf .funcType "TypeParams") typeParams)
        (ofFieldList facts (roleOf .funcType "Params") params)
        (ofOptionFieldList facts (roleOf .funcType "Results") results))

/-- Statements in braces. -/
def ofBlock (facts : Facts) : Block → Plan
  | ⟨lbrace, stmts, rbrace⟩ =>
    .typed (Block.key ⟨lbrace, stmts, rbrace⟩) .block [("statementOrExpressions", .interior)]
      ([.one "Lbrace" (.lexeme lbrace .lbrace)] ++ itemSteps "List" (ofStmts facts stmts) ++
        [.one "Rbrace" (.lexeme rbrace .rbrace)])

/-- A call. -/
def ofCall (facts : Facts) : Call → Plan
  | ⟨callee, lparen, args, ellipsis, rparen⟩ =>
    .typed (Call.key ⟨callee, lparen, args, ellipsis, rparen⟩) .functionInvocation
      [("memberSelect", .part "Fun"),
        ("returnType",
          .given (.strings (facts.results ⟨callee, lparen, args, ellipsis, rparen⟩))),
        ("arguments", .nodes [.made "Args"])]
      ([.one "Fun" (ofExpr facts callee), .one "Lparen" (.lexeme lparen .lparen)] ++
        itemSteps "Args" (ofExprs facts args) ++
        [.one "Ellipsis" (.lexeme ellipsis .ellipsis), .one "Rparen" (.lexeme rparen .rparen)])

def ofSpec (facts : Facts) : Spec → SpecParts
  | .importSpec name path stop =>
    .importSpec (importSpec facts (Spec.key (.importSpec name path stop)) name path)
  | .value names typed values =>
    .value (Spec.key (.value names typed values)) (names.map (ofIdent facts))
      (ofOption facts typed) (ofExprs facts values)
  | .type name typeParams assign aliased =>
    .type (Spec.key (.type name typeParams assign aliased)) (ofIdent facts name)
      (ofOptionFieldList facts (roleOf .typeSpec "TypeParams") typeParams) assign
      (ofExpr facts aliased)

def ofSpecs (facts : Facts) : List Spec → List SpecParts
  | [] => []
  | s :: ss => ofSpec facts s :: ofSpecs facts ss

/-- A declaration of imports, constants, types or variables. -/
def ofGenDecl (facts : Facts) : GenDecl → Plan
  | ⟨pos, keyword, lparen, specs, rparen⟩ =>
    genDecl ⟨pos, keyword, lparen, specs, rparen⟩ (ofSpecs facts specs)

/-- An expression. -/
def ofExpr (facts : Facts) (e : Expr) : Plan :=
  match e with
  | .bad .. => .native e.key []
  | .ident x => ofIdent facts x
  | .literal x => ofLiteral x
  | .ellipsis pos elem =>
    orNative e.key .ellipsis [("ellipsis", .range "Ellipsis"), ("element", .part "Elt")]
      [.one "Ellipsis" (.lexeme pos .ellipsis), .one "Elt" (.option (ofOption facts elem))] []
  | .funcLit ⟨func, typeParams, params, results⟩ body =>
    funcLit e.key func (ofOptionFieldList facts .typeParams typeParams)
      (ofFieldList facts .params params) (ofOptionFieldList facts .results results)
      (ofBlock facts body) (Flow.blocksOf body)
  | .composite type lbrace elems rbrace =>
    orNative e.key .compositeLiteral
      [("type", .part "Type"), ("elements", .nodes [.made "Elts"])]
      ([.one "Type" (.option (ofOption facts type)), .one "Lbrace" (.lexeme lbrace .lbrace)] ++
        itemSteps "Elts" (ofExprs facts elems) ++ [.one "Rbrace" (.lexeme rbrace .rbrace)]) []
  | .paren lparen x rparen =>
    orNative e.key .parenthesizedExpression
      [("leftParenthesis", .range "Lparen"), ("expression", .part "X"),
        ("rightParenthesis", .range "Rparen")]
      [.one "Lparen" (.lexeme lparen .lparen), .one "X" (ofExpr facts x),
        .one "Rparen" (.lexeme rparen .rparen)] []
  | .selector x name =>
    orNative e.key .memberSelect [("expression", .part "X"), ("identifier", .part "Sel")]
      [.one "X" (ofExpr facts x), .one "Sel" (ofIdent facts name)] []
  | .index x lbrack i rbrack =>
    orNative e.key .indexExpression [("expression", .part "X"), ("index", .part "Index")]
      [.one "X" (ofExpr facts x), .one "Lbrack" (.lexeme lbrack .lbrack),
        .one "Index" (ofExpr facts i), .one "Rbrack" (.lexeme rbrack .rbrack)] []
  | .indexList x lbrack indices rbrack =>
    orNative e.key .indexListExpression
      [("expression", .part "X"), ("indices", .nodes [.made "Indices"])]
      ([.one "X" (ofExpr facts x), .one "Lbrack" (.lexeme lbrack .lbrack)] ++
        itemSteps "Indices" (ofExprs facts indices) ++
        [.one "Rbrack" (.lexeme rbrack .rbrack)]) []
  | .slice x lbrack low high max full rbrack =>
    orNative e.key .slice
      [("expression", .part "X"), ("low", .part "Low"), ("high", .part "High"),
        ("max", .part "Max"), ("slice3", .given (.bool full))]
      [.one "X" (ofExpr facts x), .one "Lbrack" (.lexeme lbrack .lbrack),
        .one "Low" (.option (ofOption facts low)), .one "High" (.option (ofOption facts high)),
        .one "Max" (.option (ofOption facts max)), .one "Rbrack" (.lexeme rbrack .rbrack)] []
  | .typeAssert x lparen type rparen =>
    orNative e.key .typeAssertionExpression [("expression", .part "X"), ("type", .part "Type")]
      [.one "X" (ofExpr facts x), .one "Lparen" (.lexeme lparen .lparen),
        .one "Type" (.option (ofOption facts type)), .one "Rparen" (.lexeme rparen .rparen)] []
  | .call c => .firstOf (ofCall facts c) (.native e.key [])
  | .star pos x =>
    orNative e.key .starExpression [("expression", .part "X")]
      [.one "Star" (.lexeme pos .mul), .one "X" (ofExpr facts x)] []
  | .unary opPos op x =>
    let operand := ofExpr facts x
    let children := Children.unary opPos op operand
    match op.unaryName? with
    | some name =>
      orNative e.key .unaryExpression [("operator", text name), ("operand", .part "X")]
        [.one "Op" (.lexeme opPos op), .one "X" operand] children
    | none => .native e.key children
  | .binary x opPos op y =>
    let left := ofExpr facts x
    let right := ofExpr facts y
    let children := Children.binary left opPos op right
    match op.binaryName? with
    | some name =>
      orNative e.key .binaryExpression
        [("leftOperand", .part "X"), ("operator", text name), ("operatorToken", .range "Op"),
          ("rightOperand", .part "Y")]
        [.tagged "X" "operand" left, .one "Op" (.lexeme opPos op), .tagged "Y" "operand" right]
        children
    | none => .native e.key children
  | .keyValue key colon value =>
    orNative e.key .keyValue [("key", .part "Key"), ("value", .part "Value")]
      [.one "Key" (ofExpr facts key), .one "Colon" (.lexeme colon .colon),
        .one "Value" (ofExpr facts value)] []
  | .arrayType lbrack len elem =>
    orNative e.key .arrayType
      [("length", if len.isSome then .part "Len" else .given .null), ("element", .part "Elt")]
      [.one "Lbrack" (.lexeme lbrack .lbrack), .one "Len" (.option (ofOption facts len)),
        .one "Elt" (ofExpr facts elem)] []
  | .structType pos fields =>
    .native e.key (.structType pos (ofFieldList facts (roleOf .structType "Fields") fields))
  | .funcType type => ofFuncType facts type
  | .interfaceType pos methods =>
    .native e.key
      (.interfaceType pos (ofFieldList facts (roleOf .interfaceType "Methods") methods))
  | .mapType pos key value =>
    orNative e.key .mapType [("key", .part "Key"), ("value", .part "Value")]
      [.one "Map" (.lexeme pos .mapWord), .one "Key" (ofExpr facts key),
        .one "Value" (ofExpr facts value)] []
  | .chanType _ _ _ value => .native e.key (.chanType (ofExpr facts value))

def ofOption (facts : Facts) : Option Expr → Option Plan
  | none => none
  | some x => some (ofExpr facts x)

def ofExprs (facts : Facts) : List Expr → List Plan
  | [] => []
  | x :: xs => ofExpr facts x :: ofExprs facts xs

/-- A statement. -/
def ofStmt (facts : Facts) (s : Stmt) : Plan :=
  match s with
  | .bad .. => .native s.key []
  | .decl d => ofGenDecl facts d
  | .empty pos implicit => if implicit then .absent else .native s.key (.empty pos)
  | .labeled label colon stmt =>
    .native s.key (.labeled (ofIdent facts label) colon (ofStmt facts stmt))
  | .expr x =>
    orNative s.key .expressionStatement [("expression", .part "X")] [.one "X" (ofExpr facts x)] []
  | .send chan arrow value =>
    .native s.key (.send (ofExpr facts chan) arrow (ofExpr facts value))
  | .incDec x opPos op =>
    orNative s.key .unaryExpression
      [("operand", .part "X"),
        ("operator", text (if op = .inc then "INCREMENT" else "DECREMENT"))]
      [.one "X" (ofExpr facts x), .one "Tok" (.lexeme opPos op)] []
  | .assign lhs opPos op rhs => assign s.key (ofExprs facts lhs) opPos op (ofExprs facts rhs)
  | .go pos call => .native s.key (.go pos (ofCall facts call))
  | .defer pos call => .native s.key (.defer pos (ofCall facts call))
  | .ret pos results =>
    orNative s.key .ret
      [("keyword", .range "Return"), ("expressions", .nodes [.made "Results"])]
      (.one "Return" (.lexeme pos .returnWord) :: itemSteps "Results" (ofExprs facts results)) []
  | .branch pos word label =>
    let target := label.map (ofIdent facts)
    let children := Children.branch pos word target
    match word.jumpName? with
    | some name =>
      orNative s.key .jump
        [("keyword", .range "Tok"), ("kind", text name), ("label", .part "Label")]
        [.tagged "Tok" ("Tok" ++ name) (.lexeme pos word), .one "Label" (.option target)] children
    | none => .native s.key children
  | .block b => ofBlock facts b
  | .ite pos init cond body otherwise =>
    let cond := ofExpr facts cond
    let condition := match ofOptionStmt facts init with
      | some i => .group "InitAndCond" [.one "Init" i, .one "Cond" cond]
      | none => cond
    orNative s.key .ifThen
      [("ifKeyword", .range "If"), ("condition", .part "Cond"), ("thenBranch", .part "Body"),
        ("elseKeyword", .keywordBefore "Else"), ("elseBranch", .part "Else")]
      [.one "If" (.lexeme pos .ifWord), .one "Cond" condition, .one "Body" (ofBlock facts body),
        .one "Else" (.option (ofOptionStmt facts otherwise))] []
  | .caseClause pos exprs colon body =>
    let keyword := if exprs.isEmpty then Lexeme.defaultWord else .caseWord
    orNative s.key .matchCase [("expression", .part "List"), ("body", .part "Body")]
      [.one "Case" (.lexeme pos keyword),
        .one "List" (.group "CaseExprList" (itemSteps "List" (ofExprs facts exprs))),
        .one "Colon" (.lexeme colon .colon),
        .one "Body" (.clauseBody (itemSteps "Body" (ofStmts facts body)))] []
  | .switch pos init tag body =>
    switch s.key pos
      (.group "InitAndTag"
        [.one "Init" (.option (ofOptionStmt facts init)), .one "Tag" (.option (ofOption facts tag))])
      (ofBlock facts body)
  | .typeSwitch pos init assign body =>
    switch s.key pos
      (.group "InitAndAssign"
        [.one "Init" (.option (ofOptionStmt facts init)), .one "Assign" (ofStmt facts assign)])
      (ofBlock facts body)
  | .commClause pos comm colon body =>
    .native s.key (.commClause pos (ofOptionStmt facts comm) colon (ofStmts facts body))
  | .select pos body => .native s.key (.select pos (ofBlock facts body))
  | .forLoop pos init cond post body =>
    let cond := Plan.option (ofOption facts cond)
    let bare := init.isNone && post.isNone
    let condition :=
      if bare then cond
      else .group "ForHeader"
        [.one "Init" (.option (ofOptionStmt facts init)), .one "Cond" cond,
          .one "Post" (.option (ofOptionStmt facts post))]
    orNative s.key .loop
      [("keyword", .range "For"), ("condition", .part "Cond"),
        ("kind", text (if bare then "WHILE" else "FOR")), ("body", .part "Body")]
      [.one "For" (.lexeme pos .forWord), .one "Cond" condition,
        .one "Body" (ofBlock facts body)] []
  | .range pos key value opPos op _ x body =>
    let assigned := match op with
      | some w => .lexeme opPos w
      | none => .absent
    orNative s.key .loop
      [("keyword", .range "For"), ("condition", .part "Header"), ("body", .part "Body"),
        ("kind", text "FOR")]
      [.one "For" (.lexeme pos .forWord),
        .one "Header" (.group "RangeHeader"
          [.one "Key" (.option (ofOption facts key)), .one "Value" (.option (ofOption facts value)),
            .one "Tok" assigned, .one "X" (ofExpr facts x)]),
        .one "Body" (ofBlock facts body)] []

def ofOptionStmt (facts : Facts) : Option Stmt → Option Plan
  | none => none
  | some s => some (ofStmt facts s)

def ofStmts (facts : Facts) : List Stmt → List Plan
  | [] => []
  | s :: ss => ofStmt facts s :: ofStmts facts ss

end

/-- A function declaration, with or without a receiver and a body. -/
def ofFunc (facts : Facts) (recv : Option FieldList) (name : Ident) (type : FuncType)
    (body : Option Block) : Plan :=
  .node (.own (body.map Flow.blocksOf))
    ⟨some (Decl.key (.func recv name type body)), .functionDeclaration,
      [("receiver", .part "Recv"), ("name", .part "Name"), ("typeParameters", .part "TypeParams"),
        ("formalParameters", .parameters "Params"), ("returnType", .part "Results"),
        ("body", .part "Body"), ("cfg", .graph)]⟩ none
    [.tagged "Func" "Type.Func" (.lexeme type.func .funcWord),
      .one "Recv" (.option (ofOptionFieldList facts (roleOf .funcDecl "Recv") recv)),
      .one "Name" (ofIdent facts name),
      .one "TypeParams" (.option (ofOptionFieldList facts .typeParams type.typeParams)),
      .one "Params" (ofFieldList facts .params type.params),
      .one "Results" (.option (ofOptionFieldList facts .results type.results)),
      .one "Body" (.option (body.map (ofBlock facts)))]

/-- A declaration of a file. -/
def ofDecl (facts : Facts) (d : Decl) : Plan :=
  match d with
  | .bad .. => .native d.key []
  | .gen g => ofGenDecl facts g
  | .func recv name type body => ofFunc facts recv name type body

/-- The package clause, behind all text that comes before it. -/
def packageClause (facts : Facts) (f : File) : Plan :=
  .typed f.key .packageDeclaration [("children", .nodes [.own])]
    [.opening ⟨"Package", "", .leaf f.packagePos "package" .keyword (.token .label)⟩,
      .one "Name" (ofIdent facts f.name)]

/-- A file up to its end. -/
def ofFile (facts : Facts) (f : File) : Plan :=
  .typed f.key .topLevel
    [("declarations", .nodes [.made "Package", .below "Decls"]), ("firstCpdToken", .given .null)]
    [.one "Package" (packageClause facts f),
      .one "Decls" (.group "Decls([]Decl)" (itemSteps "Decls" (f.decls.map (ofDecl facts)))),
      .one "End" .endMark]

end LosslessGo.Plan
