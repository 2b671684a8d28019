import LosslessGo.Go.Span
import LosslessGo.Text.Slice

/-!
# Declared types

Parameters, results, receivers, type parameters, struct fields and interface methods are all
fields. For each name of a field anywhere in a file, its position goes with the span of the
field's type.

* `declaredIn` and the functions beside it list the names of fields in a construct.
* `Declarations.ofFile` collects them for a file.
* `Declarations.typeText?` gives the source text of a declared type.
-/

namespace LosslessGo

open Go

/-- The position of a field's name, and the span of the field's type. -/
structure Declaration where
  pos : Pos
  start : Pos
  stop : Pos
  deriving DecidableEq, Inhabited, Repr

/-- One declaration for each name of a field. -/
def declarationsOf (f : Field) : List Declaration :=
  f.names.map fun x => ⟨x.pos, f.type.start, f.type.stop⟩

mutual

def declaredInField : Field → List Declaration
  | ⟨names, type, tag⟩ => declarationsOf ⟨names, type, tag⟩ ++ declaredIn type

def declaredInFields : List Field → List Declaration
  | [] => []
  | f :: fs => declaredInField f ++ declaredInFields fs

def declaredInList : FieldList → List Declaration
  | ⟨_, fields, _⟩ => declaredInFields fields

def declaredInOptionList : Option FieldList → List Declaration
  | none => []
  | some l => declaredInList l

def declaredInType : FuncType → List Declaration
  | ⟨_, typeParams, params, results⟩ =>
    declaredInOptionList typeParams ++ declaredInList params ++ declaredInOptionList results

def declaredInBlock : Block → List Declaration
  | ⟨_, stmts, _⟩ => declaredInStmts stmts

def declaredInCall : Call → List Declaration
  | ⟨callee, _, args, _, _⟩ => declaredIn callee ++ declaredInExprs args

/-- The declarations inside an expression, in source order. -/
def declaredIn : Expr → List Declaration
  | .bad .. | .ident _ | .literal _ => []
  | .ellipsis _ elem => declaredInOption elem
  | .funcLit type body => declaredInType type ++ declaredInBlock body
  | .composite type _ elems _ => declaredInOption type ++ declaredInExprs elems
  | .paren _ x _ => declaredIn x
  | .selector x _ => declaredIn x
  | .index x _ i _ => declaredIn x ++ declaredIn i
  | .indexList x _ indices _ => declaredIn x ++ declaredInExprs indices
  | .slice x _ low high max _ _ =>
    declaredIn x ++ declaredInOption low ++ declaredInOption high ++ declaredInOption max
  | .typeAssert x _ type _ => declaredIn x ++ declaredInOption type
  | .call c => declaredInCall c
  | .star _ x => declaredIn x
  | .unary _ _ x => declaredIn x
  | .binary x _ _ y => declaredIn x ++ declaredIn y
  | .keyValue key _ value => declaredIn key ++ declaredIn value
  | .arrayType _ len elem => declaredInOption len ++ declaredIn elem
  | .structType _ fields => declaredInList fields
  | .funcType type => declaredInType type
  | .interfaceType _ methods => declaredInList methods
  | .mapType _ key value => declaredIn key ++ declaredIn value
  | .chanType _ _ _ value => declaredIn value

def declaredInOption : Option Expr → List Declaration
  | none => []
  | some x => declaredIn x

def declaredInExprs : List Expr → List Declaration
  | [] => []
  | x :: xs => declaredIn x ++ declaredInExprs xs

def declaredInGenDecl : GenDecl → List Declaration
  | ⟨_, _, _, specs, _⟩ => declaredInSpecs specs

def declaredInSpec : Spec → List Declaration
  | .importSpec .. => []
  | .value _ type values => declaredInOption type ++ declaredInExprs values
  | .type _ typeParams _ type => declaredInOptionList typeParams ++ declaredIn type

def declaredInSpecs : List Spec → List Declaration
  | [] => []
  | s :: ss => declaredInSpec s ++ declaredInSpecs ss

def declaredInStmt : Stmt → List Declaration
  | .bad .. | .empty .. | .branch .. => []
  | .decl d => declaredInGenDecl d
  | .labeled _ _ stmt => declaredInStmt stmt
  | .expr x => declaredIn x
  | .send chan _ value => declaredIn chan ++ declaredIn value
  | .incDec x _ _ => declaredIn x
  | .assign lhs _ _ rhs => declaredInExprs lhs ++ declaredInExprs rhs
  | .go _ call => declaredInCall call
  | .defer _ call => declaredInCall call
  | .ret _ results => declaredInExprs results
  | .block b => declaredInBlock b
  | .ite _ init cond body otherwise =>
    declaredInOptionStmt init ++ declaredIn cond ++ declaredInBlock body ++
      declaredInOptionStmt otherwise
  | .caseClause _ exprs _ body => declaredInExprs exprs ++ declaredInStmts body
  | .switch _ init tag body =>
    declaredInOptionStmt init ++ declaredInOption tag ++ declaredInBlock body
  | .typeSwitch _ init assign body =>
    declaredInOptionStmt init ++ declaredInStmt assign ++ declaredInBlock body
  | .commClause _ comm _ body => declaredInOptionStmt comm ++ declaredInStmts body
  | .select _ body => declaredInBlock body
  | .forLoop _ init cond post body =>
    declaredInOptionStmt init ++ declaredInOption cond ++ declaredInOptionStmt post ++
      declaredInBlock body
  | .range _ key value _ _ _ x body =>
    declaredInOption key ++ declaredInOption value ++ declaredIn x ++ declaredInBlock body

def declaredInOptionStmt : Option Stmt → List Declaration
  | none => []
  | some s => declaredInStmt s

def declaredInStmts : List Stmt → List Declaration
  | [] => []
  | s :: ss => declaredInStmt s ++ declaredInStmts ss

end

def declaredInDecl : Decl → List Declaration
  | .bad .. => []
  | .gen d => declaredInGenDecl d
  | .func recv _ type body =>
    declaredInOptionList recv ++ declaredInType type ++ (body.map declaredInBlock).getD []

/-- The spans of declared types by the position of the declared name, the last one first. -/
structure Declarations where
  spans : List (Pos × Pos × Pos)
  deriving DecidableEq, Inhabited, Repr

namespace Declarations

/-- The declarations of a file; of two names at one position the later one counts. -/
def ofFile (f : File) : Declarations :=
  ⟨((f.decls.flatMap declaredInDecl).map fun d => (d.pos, d.start, d.stop)).reverse⟩

/-- The number of positions with a declared name. -/
def size (ds : Declarations) : Nat := (ds.spans.map (·.1)).eraseDups.length

/-- The source text of the type declared with the name at `pos`. -/
def typeText? (ds : Declarations) (source : String) (pos : Pos) : Option String :=
  (ds.spans.lookup pos).bind fun (start, stop) => Text.slice? source start.toNat stop.toNat

end Declarations

end LosslessGo
