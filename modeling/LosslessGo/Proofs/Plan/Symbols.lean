import LosslessGo.Proofs.Plan.Without

/-!
# Plans and symbols

What is said about the names of a file goes into the fields of identifiers and calls, and has no other
part in the plan of the file: without these fields the plan is always the same (`Plan.ofFile_without`).
-/

namespace LosslessGo

open Go

/-- The fields that hold what is known of symbols. -/
def symbolFields : Hidden
  | .identifier => ["id", "type", "package"]
  | .functionInvocation => ["returnType"]
  | _ => []

@[simp] theorem symbolFields_eq_nil {type : NodeType} (hident : type ≠ .identifier)
    (hcall : type ≠ .functionInvocation) : symbolFields type = [] := by
  cases type <;> first | rfl | contradiction

namespace Plan

attribute [local simp] Child.map

variable (facts facts' : Facts)

/-! ## Leaves and parameters -/

theorem ofIdent_without (x : Ident) :
    (ofIdent facts x).without symbolFields = (ofIdent facts' x).without symbolFields := by
  have hfields (facts : Facts) : (identFields facts x).filter (·.1 ∉ symbolFields .identifier) =
      [("name", text x.name)] := by
    unfold identFields
    split <;> simp [symbolFields]
  unfold ofIdent
  split
  · rfl
  split
  · rfl
  · rw [typed_without, typed_without, hfields, hfields]

theorem ofIdent_without_comp : (·.without symbolFields) ∘ ofIdent facts =
    (·.without symbolFields) ∘ ofIdent facts' :=
  funext (ofIdent_without facts facts')

theorem parameter_without {type type' : Plan}
    (h : type.without symbolFields = type'.without symbolFields) (x : Ident) :
    (parameter facts x type).without symbolFields =
      (parameter facts' x type').without symbolFields := by
  simp [parameter, ofIdent_without facts facts' x, h]

theorem parameters_without {type type' : Plan}
    (h : type.without symbolFields = type'.without symbolFields) (xs : List Ident) :
    (parameters facts type xs).map (·.without symbolFields) =
      (parameters facts' type' xs).map (·.without symbolFields) := by
  fun_induction parameters facts type xs with
  | case1 => rfl
  | case2 x => simp [parameters, parameter_without facts facts' h x]
  | case3 x y xs ih =>
    simp only [parameters, List.map_cons, ih, parameter_without facts facts' rfl x]

theorem field_without {type type' : Plan}
    (h : type.without symbolFields = type'.without symbolFields) (role : ListRole) (key : Key)
    (names : List Ident) (tag : Option Literal) :
    (field facts role key names type tag).without symbolFields =
      (field facts' role key names type' tag).without symbolFields := by
  unfold field
  split
  · rw [native_node_without rfl, native_node_without rfl, stepsWithout_itemSteps,
      stepsWithout_itemSteps, parameters_without facts facts' h names]
  · simp [Children.field, ofIdent_without_comp facts facts', h]

/-! ## Declarations and statements in parts -/

/-- The planned parts of a specification without the hidden fields of their nodes. -/
def SpecParts.without (hidden : Hidden) : SpecParts → SpecParts
  | .importSpec p => .importSpec (p.without hidden)
  | .value key names typed values =>
    .value key (names.map (·.without hidden)) (typed.map (·.without hidden))
      (values.map (·.without hidden))
  | .type key name typeParams assign aliased =>
    .type key (name.without hidden) (typeParams.map (·.without hidden)) assign
      (aliased.without hidden)

theorem SpecParts.whole_without (s : SpecParts) :
    s.whole.without symbolFields = (s.without symbolFields).whole := by
  cases s <;> simp [SpecParts.whole, SpecParts.without, Children.valueSpec, Children.typeSpec]

theorem typedDecl?_without (d : GenDecl) (specs : List SpecParts) :
    (typedDecl? d specs).map (·.without symbolFields) =
      typedDecl? d (specs.map (·.without symbolFields)) := by
  obtain ⟨pos, keyword, lparen, specs', rparen⟩ := d
  unfold typedDecl?
  simp only
  split
  · simp [Function.comp_def, SpecParts.whole_without]
  · simp [SpecParts.without, Plan.without, Head.without]
  · simp [SpecParts.without]
  · simp [SpecParts.without]
  · -- A specification stays one of its sort.
    rename_i himport hconst hvar htype
    rw [Option.map_none]
    split
    · exact (himport rfl).elim
    · obtain ⟨s, rfl, hs⟩ := List.map_eq_singleton_iff.mp ‹_›
      cases s with
      | type => exact (htype _ _ _ _ _ rfl rfl rfl).elim
      | _ => cases hs
    · obtain ⟨s, rfl, hs⟩ := List.map_eq_singleton_iff.mp ‹_›
      cases s with
      | value => exact (hconst _ _ _ _ rfl rfl).elim
      | _ => cases hs
    · obtain ⟨s, rfl, hs⟩ := List.map_eq_singleton_iff.mp ‹_›
      cases s with
      | value => exact (hvar _ _ _ _ rfl rfl).elim
      | _ => cases hs
    · rfl

theorem genDecl_without (d : GenDecl) (specs : List SpecParts) :
    (genDecl d specs).without symbolFields = genDecl d (specs.map (·.without symbolFields)) := by
  have hwhole : (native d.key
      (.genDecl d.pos d.keyword d.lparen (specs.map (·.whole)) d.rparen)).without symbolFields =
        native d.key (.genDecl d.pos d.keyword d.lparen
          ((specs.map (·.without symbolFields)).map (·.whole)) d.rparen) := by
    simp [Children.genDecl, Function.comp_def, SpecParts.whole_without]
  unfold genDecl
  simp only [← typedDecl?_without]
  cases typedDecl? d specs with
  | none => exact hwhole
  | some p => simp [hwhole]

theorem handSide_without (ps : List Plan) :
    (handSide ps).without symbolFields = handSide (ps.map (·.without symbolFields)) := by
  match ps with
  | [] => rfl
  | [p] => rfl
  | p :: q :: ps => simp [handSide, Plan.without, Head.without]

theorem assign_without (key : Key) (lhs : List Plan) (opPos : Pos) (op : Lexeme) (rhs : List Plan) :
    (assign key lhs opPos op rhs).without symbolFields =
      assign key (lhs.map (·.without symbolFields)) opPos op (rhs.map (·.without symbolFields)) := by
  unfold assign
  simp only
  split
  · simp [Children.assign]
  split
  · simp [Children.assign, handSide_without]
  · simp [Children.assign]

theorem switch_without (key : Key) (pos : Pos) (header body : Plan) :
    (switch key pos header body).without symbolFields =
      switch key pos (header.without symbolFields) (body.without symbolFields) := by
  simp [switch]

theorem funcLit_without (key : Key) (func : Option Pos) (typeParams : Option Plan) (params : Plan)
    (results : Option Plan) (body : Plan) (blocks : List Flow.Block) :
    (funcLit key func typeParams params results body blocks).without symbolFields =
      funcLit key func (typeParams.map (·.without symbolFields)) (params.without symbolFields)
        (results.map (·.without symbolFields)) (body.without symbolFields) blocks := by
  simp [funcLit, Plan.without, Head.without]

/-! ## Constructs -/

mutual

theorem ofFieldList_without (role : ListRole) : (l : FieldList) →
    (ofFieldList facts role l).without symbolFields =
      (ofFieldList facts' role l).without symbolFields
  | ⟨opening, fields, closing⟩ => by
    simp [ofFieldList, Children.fieldList, ofFields_without role fields]

theorem ofOptionFieldList_without (role : ListRole) : (l : Option FieldList) →
    (ofOptionFieldList facts role l).map (·.without symbolFields) =
      (ofOptionFieldList facts' role l).map (·.without symbolFields)
  | none => rfl
  | some l => by simp [ofOptionFieldList, ofFieldList_without role l]

theorem ofFields_without (role : ListRole) : (fields : List Field) →
    (ofFields facts role fields).map (·.without symbolFields) =
      (ofFields facts' role fields).map (·.without symbolFields)
  | [] => rfl
  | ⟨names, type, tag⟩ :: fields => by
    simp only [ofFields, List.map_cons, ofFields_without role fields,
      field_without facts facts' (ofExpr_without type)]

theorem ofFuncType_without : (t : FuncType) →
    (ofFuncType facts t).without symbolFields = (ofFuncType facts' t).without symbolFields
  | ⟨func, typeParams, params, results⟩ => by
    simp [ofFuncType, Children.funcType, ofOptionFieldList_without _ typeParams,
      ofFieldList_without _ params, ofOptionFieldList_without _ results]

theorem ofBlock_without : (b : Block) →
    (ofBlock facts b).without symbolFields = (ofBlock facts' b).without symbolFields
  | ⟨lbrace, stmts, rbrace⟩ => by simp [ofBlock, ofStmts_without stmts]

theorem ofCall_without : (c : Call) →
    (ofCall facts c).without symbolFields = (ofCall facts' c).without symbolFields
  | ⟨callee, lparen, args, ellipsis, rparen⟩ => by
    simp [ofCall, symbolFields, ofExpr_without callee, ofExprs_without args]

theorem ofSpec_without : (s : Spec) →
    (ofSpec facts s).without symbolFields = (ofSpec facts' s).without symbolFields
  | .importSpec name path stop => by
    simp [ofSpec, SpecParts.without, importSpec, ofIdent_without_comp facts facts']
  | .value names typed values => by
    simp [ofSpec, SpecParts.without, ofIdent_without_comp facts facts', ofOption_without typed,
      ofExprs_without values]
  | .type name typeParams assign aliased => by
    simp [ofSpec, SpecParts.without, ofIdent_without facts facts' name,
      ofOptionFieldList_without _ typeParams, ofExpr_without aliased]

theorem ofSpecs_without : (ss : List Spec) →
    (ofSpecs facts ss).map (·.without symbolFields) =
      (ofSpecs facts' ss).map (·.without symbolFields)
  | [] => rfl
  | s :: ss => by simp [ofSpecs, ofSpec_without s, ofSpecs_without ss]

theorem ofGenDecl_without : (d : GenDecl) →
    (ofGenDecl facts d).without symbolFields = (ofGenDecl facts' d).without symbolFields
  | ⟨pos, keyword, lparen, specs, rparen⟩ => by
    rw [ofGenDecl, ofGenDecl, genDecl_without, genDecl_without, ofSpecs_without specs]

theorem ofExpr_without : (e : Expr) →
    (ofExpr facts e).without symbolFields = (ofExpr facts' e).without symbolFields
  | .bad .. => rfl
  | .ident x => by simp [ofExpr, ofIdent_without facts facts' x]
  | .literal x => rfl
  | .ellipsis pos elem => by simp [ofExpr, ofOption_without elem]
  | .funcLit ⟨func, typeParams, params, results⟩ body => by
    simp [ofExpr, funcLit_without, ofOptionFieldList_without _ typeParams,
      ofFieldList_without _ params, ofOptionFieldList_without _ results, ofBlock_without body]
  | .composite type lbrace elems rbrace => by
    simp [ofExpr, ofOption_without type, ofExprs_without elems]
  | .paren lparen x rparen => by simp [ofExpr, ofExpr_without x]
  | .selector x name => by simp [ofExpr, ofExpr_without x, ofIdent_without facts facts' name]
  | .index x lbrack i rbrack => by simp [ofExpr, ofExpr_without x, ofExpr_without i]
  | .indexList x lbrack indices rbrack => by
    simp [ofExpr, ofExpr_without x, ofExprs_without indices]
  | .slice x lbrack low high max full rbrack => by
    simp [ofExpr, ofExpr_without x, ofOption_without low, ofOption_without high,
      ofOption_without max]
  | .typeAssert x lparen type rparen => by
    simp [ofExpr, ofExpr_without x, ofOption_without type]
  | .call c => by simp [ofExpr, ofCall_without c]
  | .star pos x => by simp [ofExpr, ofExpr_without x]
  | .unary opPos op x => by
    cases hop : op.unaryName? <;> simp [ofExpr, hop, Children.unary, ofExpr_without x]
  | .binary x opPos op y => by
    cases hop : op.binaryName? <;>
      simp [ofExpr, hop, Children.binary, ofExpr_without x, ofExpr_without y]
  | .keyValue key colon value => by simp [ofExpr, ofExpr_without key, ofExpr_without value]
  | .arrayType lbrack len elem => by simp [ofExpr, ofOption_without len, ofExpr_without elem]
  | .structType pos fields => by
    simp [ofExpr, Children.structType, ofFieldList_without _ fields]
  | .funcType type => by simp [ofExpr, ofFuncType_without type]
  | .interfaceType pos methods => by
    simp [ofExpr, Children.interfaceType, ofFieldList_without _ methods]
  | .mapType pos key value => by simp [ofExpr, ofExpr_without key, ofExpr_without value]
  | .chanType pos arrow dir value => by simp [ofExpr, Children.chanType, ofExpr_without value]

theorem ofOption_without : (x : Option Expr) →
    (ofOption facts x).map (·.without symbolFields) =
      (ofOption facts' x).map (·.without symbolFields)
  | none => rfl
  | some x => by simp [ofOption, ofExpr_without x]

theorem ofExprs_without : (xs : List Expr) →
    (ofExprs facts xs).map (·.without symbolFields) =
      (ofExprs facts' xs).map (·.without symbolFields)
  | [] => rfl
  | x :: xs => by simp [ofExprs, ofExpr_without x, ofExprs_without xs]

theorem ofStmt_without : (s : Stmt) →
    (ofStmt facts s).without symbolFields = (ofStmt facts' s).without symbolFields
  | .bad .. => rfl
  | .decl d => by simp [ofStmt, ofGenDecl_without d]
  | .empty pos implicit => rfl
  | .labeled label colon stmt => by
    simp [ofStmt, Children.labeled, ofIdent_without facts facts' label, ofStmt_without stmt]
  | .expr x => by simp [ofStmt, ofExpr_without x]
  | .send chan arrow value => by
    simp [ofStmt, Children.send, ofExpr_without chan, ofExpr_without value]
  | .incDec x opPos op => by simp [ofStmt, ofExpr_without x]
  | .assign lhs opPos op rhs => by
    simp [ofStmt, assign_without, ofExprs_without lhs, ofExprs_without rhs]
  | .go pos call => by simp [ofStmt, Children.go, ofCall_without call]
  | .defer pos call => by simp [ofStmt, Children.defer, ofCall_without call]
  | .ret pos results => by simp [ofStmt, ofExprs_without results]
  | .branch pos word label => by
    cases hword : word.jumpName? <;>
      simp [ofStmt, hword, Children.branch, ofIdent_without_comp facts facts']
  | .block b => by simp [ofStmt, ofBlock_without b]
  | .ite pos none cond body otherwise => by
    simp [ofStmt, ofOptionStmt, ofExpr_without cond, ofBlock_without body,
      ofOptionStmt_without otherwise]
  | .ite pos (some init) cond body otherwise => by
    simp [ofStmt, ofOptionStmt, ofStmt_without init, ofExpr_without cond, ofBlock_without body,
      ofOptionStmt_without otherwise]
  | .caseClause pos exprs colon body => by
    simp [ofStmt, ofExprs_without exprs, ofStmts_without body]
  | .switch pos init tag body => by
    simp [ofStmt, switch_without, ofOptionStmt_without init, ofOption_without tag,
      ofBlock_without body]
  | .typeSwitch pos init assign body => by
    simp [ofStmt, switch_without, ofOptionStmt_without init, ofStmt_without assign,
      ofBlock_without body]
  | .commClause pos none colon body => by
    simp [ofStmt, ofOptionStmt, Children.commClause, ofStmts_without body]
  | .commClause pos (some comm) colon body => by
    simp [ofStmt, ofOptionStmt, Children.commClause, ofStmt_without comm, ofStmts_without body]
  | .select pos body => by simp [ofStmt, Children.select, ofBlock_without body]
  | .forLoop pos init cond post body => by
    cases hbare : init.isNone && post.isNone <;>
      simp [ofStmt, hbare, ofOptionStmt_without init, ofOption_without cond,
        ofOptionStmt_without post, ofBlock_without body]
  | .range pos key value opPos op rangePos x body => by
    cases op <;>
      simp [ofStmt, ofOption_without key, ofOption_without value, ofExpr_without x,
        ofBlock_without body]

theorem ofOptionStmt_without : (s : Option Stmt) →
    (ofOptionStmt facts s).map (·.without symbolFields) =
      (ofOptionStmt facts' s).map (·.without symbolFields)
  | none => rfl
  | some s => by simp [ofOptionStmt, ofStmt_without s]

theorem ofStmts_without : (ss : List Stmt) →
    (ofStmts facts ss).map (·.without symbolFields) =
      (ofStmts facts' ss).map (·.without symbolFields)
  | [] => rfl
  | s :: ss => by simp [ofStmts, ofStmt_without s, ofStmts_without ss]

end

theorem ofFunc_without (recv : Option FieldList) (name : Ident) (type : FuncType)
    (body : Option Block) : (ofFunc facts recv name type body).without symbolFields =
      (ofFunc facts' recv name type body).without symbolFields := by
  have hbody : (body.map (ofBlock facts)).map (·.without symbolFields) =
      (body.map (ofBlock facts')).map (·.without symbolFields) := by
    cases body <;> simp [ofBlock_without facts facts']
  simp [ofFunc, Plan.without, Head.without, ofOptionFieldList_without facts facts',
    ofFieldList_without facts facts', ofIdent_without facts facts' name, hbody]

theorem ofDecl_without (d : Decl) :
    (ofDecl facts d).without symbolFields = (ofDecl facts' d).without symbolFields := by
  cases d with
  | bad start stop => rfl
  | gen g => exact ofGenDecl_without facts facts' g
  | func recv name type body => exact ofFunc_without facts facts' recv name type body

theorem packageClause_without (f : File) :
    (packageClause facts f).without symbolFields =
      (packageClause facts' f).without symbolFields := by
  simp [packageClause, Plan.without, LeafForm.without, ofIdent_without facts facts' f.name]

/-- What is said about the names of a file makes no other difference to the plan. -/
theorem ofFile_without (f : File) :
    (ofFile facts f).without symbolFields = (ofFile facts' f).without symbolFields := by
  have hdecls : (·.without symbolFields) ∘ ofDecl facts = (·.without symbolFields) ∘ ofDecl facts' :=
    funext (ofDecl_without facts facts')
  simp [ofFile, packageClause_without facts facts' f, hdecls]

end Plan

end LosslessGo
