import LosslessGo.Go.Span

/-!
# The functions of a file

`File.functions` lists the function declarations and the function literals of a file, each by its key
with its body. Declarations without a body are left out.
-/

namespace LosslessGo.Go

mutual

/-- The function literals of a group of fields. -/
def Field.functions : Field → List (Key × Block)
  | ⟨_, type, _⟩ => type.functions

def FieldList.functions : FieldList → List (Key × Block)
  | ⟨_, fields, _⟩ => functionsOfFields fields

def functionsOfFieldList : Option FieldList → List (Key × Block)
  | none => []
  | some l => l.functions

def functionsOfFields : List Field → List (Key × Block)
  | [] => []
  | f :: fs => f.functions ++ functionsOfFields fs

def FuncType.functions : FuncType → List (Key × Block)
  | ⟨_, typeParams, params, results⟩ =>
    functionsOfFieldList typeParams ++ params.functions ++ functionsOfFieldList results

def Block.functions : Block → List (Key × Block)
  | ⟨_, stmts, _⟩ => functionsOfStmts stmts

def Call.functions : Call → List (Key × Block)
  | ⟨callee, _, args, _, _⟩ => callee.functions ++ functionsOfExprs args

def GenDecl.functions : GenDecl → List (Key × Block)
  | ⟨_, _, _, specs, _⟩ => functionsOfSpecs specs

def Expr.functions : Expr → List (Key × Block)
  | .bad .. | .ident .. | .literal .. => []
  | .ellipsis _ elem => functionsOfOption elem
  | .funcLit type body =>
    ((Expr.funcLit type body).key, body) :: type.functions ++ body.functions
  | .composite type _ elems _ => functionsOfOption type ++ functionsOfExprs elems
  | .paren _ x _ | .selector x _ | .star _ x | .unary _ _ x => x.functions
  | .index x _ y _ | .binary x _ _ y | .keyValue x _ y | .mapType _ x y =>
    x.functions ++ y.functions
  | .indexList x _ indices _ => x.functions ++ functionsOfExprs indices
  | .slice x _ low high max _ _ =>
    x.functions ++ functionsOfOption low ++ functionsOfOption high ++ functionsOfOption max
  | .typeAssert x _ type _ => x.functions ++ functionsOfOption type
  | .call c => c.functions
  | .arrayType _ len elem => functionsOfOption len ++ elem.functions
  | .structType _ fields | .interfaceType _ fields => fields.functions
  | .funcType type => type.functions
  | .chanType _ _ _ value => value.functions

def functionsOfOption : Option Expr → List (Key × Block)
  | none => []
  | some x => x.functions

def functionsOfExprs : List Expr → List (Key × Block)
  | [] => []
  | x :: xs => x.functions ++ functionsOfExprs xs

def Spec.functions : Spec → List (Key × Block)
  | .importSpec .. => []
  | .value _ type values => functionsOfOption type ++ functionsOfExprs values
  | .type _ typeParams _ type => functionsOfFieldList typeParams ++ type.functions

def functionsOfSpecs : List Spec → List (Key × Block)
  | [] => []
  | s :: ss => s.functions ++ functionsOfSpecs ss

def Stmt.functions : Stmt → List (Key × Block)
  | .bad .. | .empty .. | .branch .. => []
  | .decl d => d.functions
  | .labeled _ _ s => s.functions
  | .expr x | .incDec x _ _ => x.functions
  | .send x _ y => x.functions ++ y.functions
  | .assign lhs _ _ rhs => functionsOfExprs lhs ++ functionsOfExprs rhs
  | .go _ call | .defer _ call => call.functions
  | .ret _ results => functionsOfExprs results
  | .block b | .select _ b => b.functions
  | .ite _ init cond body otherwise =>
    functionsOfStmt init ++ cond.functions ++ body.functions ++ functionsOfStmt otherwise
  | .caseClause _ exprs _ body => functionsOfExprs exprs ++ functionsOfStmts body
  | .switch _ init tag body => functionsOfStmt init ++ functionsOfOption tag ++ body.functions
  | .typeSwitch _ init assign body => functionsOfStmt init ++ assign.functions ++ body.functions
  | .commClause _ comm _ body => functionsOfStmt comm ++ functionsOfStmts body
  | .forLoop _ init cond post body =>
    functionsOfStmt init ++ functionsOfOption cond ++ functionsOfStmt post ++ body.functions
  | .range _ key value _ _ _ x body =>
    functionsOfOption key ++ functionsOfOption value ++ x.functions ++ body.functions

def functionsOfStmt : Option Stmt → List (Key × Block)
  | none => []
  | some s => s.functions

def functionsOfStmts : List Stmt → List (Key × Block)
  | [] => []
  | s :: ss => s.functions ++ functionsOfStmts ss

end

/-- The functions of a declaration. One without a body has no literals in its body. -/
def Decl.functions : Decl → List (Key × Block)
  | .bad .. => []
  | .gen d => d.functions
  | .func recv name type body =>
    (body.map fun b => ((Decl.func recv name type body).key, b)).toList ++
      functionsOfFieldList recv ++ type.functions ++ (body.map Block.functions).getD []

/-- The functions of a file. -/
def File.functions (f : File) : List (Key × Block) := f.decls.flatMap Decl.functions

end LosslessGo.Go
