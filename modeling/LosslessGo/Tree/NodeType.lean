/-!
# Types of tree nodes

The language-neutral constructs that a converted tree is made of.
-/

namespace LosslessGo

/-- The construct that a node stands for; `native` is any node without a construct of its own. -/
inductive NodeType where
  | native | topLevel | packageDeclaration | importDeclaration | importSpecification
  | classDeclaration | variableDeclaration | functionDeclaration | parameter | block | ret
  | identifier | literal | placeHolder | stringLiteral | integerLiteral | floatLiteral
  | imaginaryLiteral | assignmentExpression | leftRightHandSide | jump | matchCase | matchOf
  | expressionStatement | loop | ifThen | unaryExpression | arrayType | binaryExpression
  | functionInvocation | compositeLiteral | ellipsis | indexExpression | indexListExpression
  | keyValue | mapType | parenthesizedExpression | memberSelect | slice | starExpression
  | typeAssertionExpression
  deriving DecidableEq, Inhabited, Repr

namespace NodeType

/-- Every type. -/
def all : List NodeType :=
  [native, topLevel, packageDeclaration, importDeclaration, importSpecification,
    classDeclaration, variableDeclaration, functionDeclaration, parameter, block, ret,
    identifier, literal, placeHolder, stringLiteral, integerLiteral, floatLiteral,
    imaginaryLiteral, assignmentExpression, leftRightHandSide, jump, matchCase, matchOf,
    expressionStatement, loop, ifThen, unaryExpression, arrayType, binaryExpression,
    functionInvocation, compositeLiteral, ellipsis, indexExpression, indexListExpression,
    keyValue, mapType, parenthesizedExpression, memberSelect, slice, starExpression,
    typeAssertionExpression]

theorem mem_all (t : NodeType) : t ∈ all := by cases t <;> decide

/-- The name of a type in documents. -/
def name : NodeType → String
  | native => "Native" | topLevel => "TopLevel" | packageDeclaration => "PackageDeclaration"
  | importDeclaration => "ImportDeclaration" | importSpecification => "ImportSpecification"
  | classDeclaration => "ClassDeclaration" | variableDeclaration => "VariableDeclaration"
  | functionDeclaration => "FunctionDeclaration" | parameter => "Parameter" | block => "Block"
  | ret => "Return" | identifier => "Identifier" | literal => "Literal"
  | placeHolder => "PlaceHolder" | stringLiteral => "StringLiteral"
  | integerLiteral => "IntegerLiteral" | floatLiteral => "FloatLiteral"
  | imaginaryLiteral => "ImaginaryLiteral" | assignmentExpression => "AssignmentExpression"
  | leftRightHandSide => "LeftRightHandSide" | jump => "Jump" | matchCase => "MatchCase"
  | matchOf => "Match" | expressionStatement => "ExpressionStatement" | loop => "Loop"
  | ifThen => "If" | unaryExpression => "UnaryExpression" | arrayType => "ArrayType"
  | binaryExpression => "BinaryExpression" | functionInvocation => "FunctionInvocation"
  | compositeLiteral => "CompositeLiteral" | ellipsis => "Ellipsis"
  | indexExpression => "IndexExpression" | indexListExpression => "IndexListExpression"
  | keyValue => "KeyValue" | mapType => "MapType"
  | parenthesizedExpression => "ParenthesizedExpression" | memberSelect => "MemberSelect"
  | slice => "Slice" | starExpression => "StarExpression"
  | typeAssertionExpression => "TypeAssertionExpression"

/-- The type of a name. -/
def ofName? (s : String) : Option NodeType := all.find? (·.name == s)

end NodeType

end LosslessGo
