import LosslessGo.Go.Children

/-!
# What becomes of fields

Most fields are converted in place: a token or a node is appended as it is, a list item by item.
The schema lists the others.

* `ruleOf` is the rule of a field, by the kind of the node and the name of the field.
* `schema` is the table behind it; `schema_declared` says that it names only fields of the grammar,
  `schema_nodup` that it names each once.
-/

namespace LosslessGo.Go

/-- What becomes of a field. -/
inductive FieldRule where
  /-- Converted in place. -/
  | inPlace
  /-- A list whose items are put under a node of this label. -/
  | wrapped (label : String)
  /-- A field list with delimiters of this role. -/
  | delimited (role : ListRole)
  /-- Left to the text between the neighbouring fields. -/
  | skip
  deriving DecidableEq, Inhabited, Repr

/-- The fields that are not converted in place. -/
def schema : List ((Kind × String) × FieldRule) :=
  [((.file, "Decls"), .wrapped "Decls([]Decl)"),
    ((.genDecl, "Specs"), .wrapped "Specs([]Spec)"),
    ((.field, "Names"), .wrapped "Names([]*Ident)"),
    ((.valueSpec, "Names"), .wrapped "Names([]*Ident)"),
    ((.valueSpec, "Values"), .wrapped "Values([]Expr)"),
    ((.assignStmt, "Lhs"), .wrapped "Lhs([]Expr)"),
    ((.assignStmt, "Rhs"), .wrapped "Rhs([]Expr)"),
    ((.caseClause, "Body"), .wrapped "Body([]Stmt)"),
    ((.commClause, "Body"), .wrapped "Body([]Stmt)"),
    ((.callExpr, "Args"), .wrapped "Args([]Expr)"),
    ((.compositeLit, "Elts"), .wrapped "Elts([]Expr)"),
    ((.structType, "Fields"), .delimited .brace),
    ((.interfaceType, "Methods"), .delimited .brace),
    ((.funcType, "Params"), .delimited .params),
    ((.funcType, "Results"), .delimited .results),
    ((.funcType, "TypeParams"), .delimited .typeParams),
    ((.funcDecl, "Recv"), .delimited .receiver),
    ((.typeSpec, "TypeParams"), .delimited .typeParams),
    ((.chanType, "Begin"), .skip),
    ((.chanType, "Arrow"), .skip),
    ((.chanType, "Dir"), .skip)]

theorem schema_declared : ∀ e ∈ schema, e.1.2 ∈ e.1.1.fields := by decide

theorem schema_nodup : (schema.map (·.1)).Nodup := by decide

/-- The rule of a field. -/
def ruleOf (kind : Kind) (field : String) : FieldRule := (schema.lookup (kind, field)).getD .inPlace

/-- The label of the node around the items of a list, where they are put under one. -/
def wrapperLabel? (kind : Kind) (field : String) : Option String :=
  match ruleOf kind field with
  | .wrapped label => some label
  | _ => none

/-- The role of a field list. -/
def roleOf (kind : Kind) (field : String) : ListRole :=
  match ruleOf kind field with
  | .delimited role => role
  | _ => .params

end LosslessGo.Go
