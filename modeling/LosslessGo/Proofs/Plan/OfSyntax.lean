import LosslessGo.Plan.OfSyntax
import LosslessGo.Proofs.Plan.Trait

/-!
# The plans for Go have every trait

`Plan.ofFile_holds` follows from one lemma for each construct, by recursion on the syntax tree. The plan
for a file is regular (`Plan.ofFile_regular`), and its nodes for names are leaves (`Plan.ofFile_named`).
-/

namespace LosslessGo.Plan

open Go

attribute [local simp] Child.All

variable (T : Trait) (facts : Facts)

/-! ## Leaves and parameters -/

theorem shows_identFields (x : Ident) (hx : ¬x.IsConstant) :
    Head.Shows ⟨some x.key, .identifier, identFields facts x⟩ x := by
  refine ⟨rfl, by simp [hx], ?_⟩
  rintro _ ⟨⟩ d o
  unfold identFields
  split <;> simp [fieldValues, fieldValue, text, Fields.ofList, Fields.get?_insert]

@[simp] theorem ofIdent_holds (x : Ident) : T.Holds (ofIdent facts x) := by
  unfold ofIdent
  split
  · refine T.name ⟨rfl, iff_of_true rfl ‹_›, ?_⟩ (by simp [FieldsRegular, text]) (by simp)
    rintro _ ⟨⟩ d o
    simp [fieldValues, fieldValue, text, Fields.ofList, Fields.get?_insert]
  split
  · exact T.typed (by simp) (by simp [FieldsRegular]) rfl
  · refine T.name (shows_identFields facts x ‹_›) ?_ (by simp)
    unfold identFields
    split <;> simp [FieldsRegular, text]

@[simp] theorem plainLiteral_holds (x : Literal) : T.Holds (plainLiteral x) :=
  T.leaf rfl trivial trivial

@[simp] theorem ofLiteral_holds (x : Literal) : T.Holds (ofLiteral x) := by
  have htyped (type : NodeType) (h : type.isPlain = true) : T.Holds (typedLiteral x type) :=
    T.leaf rfl ⟨NodeType.ne_function_of_isPlain h, _, rfl, by simp⟩
      (NodeType.nameField?_of_isPlain h)
  unfold ofLiteral
  split
  · split
    · exact plainLiteral_holds T x
    · exact T.leaf rfl ⟨by simp, _, rfl, by simp⟩ rfl
  · exact plainLiteral_holds T x
  · exact htyped _ rfl
  · exact htyped _ rfl
  · exact htyped _ rfl

variable {T} {facts}

theorem parameter_holds {type : Plan} (h : T.Holds type) (x : Ident) :
    T.Holds (parameter facts x type) :=
  T.typed (by simp [h]) (by simp [FieldsRegular]) rfl

theorem parameters_holds {type : Plan} (h : T.Holds type) (xs : List Ident) :
    ∀ p ∈ parameters facts type xs, T.Holds p := by
  fun_induction parameters facts type xs with
  | case1 => simp
  | case2 x => simpa using parameter_holds h x
  | case3 x y xs ih =>
    rw [List.forall_mem_cons]
    exact ⟨parameter_holds T.absent x, ih⟩

theorem field_holds {role : ListRole} {key : Key} {names : List Ident} {type : Plan}
    {tag : Option Literal} (h : T.Holds type) : T.Holds (field facts role key names type tag) := by
  unfold field
  split
  · exact T.shared (.mono (by simpa using parameters_holds h names)) fieldsRegular_native rfl
  · exact T.native (by simp [Children.field, h])

/-! ## Declarations and statements in parts -/

/-- The planned parts of a specification satisfy `P`. -/
def SpecParts.All (P : Plan → Prop) : SpecParts → Prop
  | .importSpec p => P p
  | .value _ names typed values =>
    (∀ p ∈ names, P p) ∧ (∀ p ∈ typed, P p) ∧ ∀ p ∈ values, P p
  | .type _ name typeParams _ aliased =>
    P name ∧ (∀ p ∈ typeParams, P p) ∧ P aliased

theorem SpecParts.All.whole {s : SpecParts} (h : s.All T.Holds) : T.Holds s.whole := by
  cases s with
  | importSpec p => exact h
  | value key names type values =>
    obtain ⟨hn, ht, hv⟩ := h
    exact T.native (by simpa [Children.valueSpec] using ⟨hn, ht, hv⟩)
  | type key name typeParams assign aliased =>
    obtain ⟨hn, ht, ha⟩ := h
    exact T.native (by simpa [Children.typeSpec] using ⟨hn, ht, ha⟩)

theorem importSpec_holds (key : Key) (name : Option Ident) (path : Literal) :
    T.Holds (importSpec facts key name path) :=
  T.typed (by simp) (by simp [FieldsRegular]) rfl

theorem typedDecl?_holds {d : GenDecl} {specs : List SpecParts}
    (h : ∀ s ∈ specs, s.All T.Holds) {p : Plan} (hp : typedDecl? d specs = some p) :
    T.Holds p := by
  unfold typedDecl? at hp
  simp only at hp
  split at hp
  · obtain rfl := Option.some.inj hp
    refine T.typed ?_ (by simp [FieldsRegular]) rfl
    simpa using fun s hs => (h s hs).whole
  · obtain rfl := Option.some.inj hp
    obtain ⟨hn, ht, ha⟩ := h _ List.mem_cons_self
    refine T.node ⟨fieldsRegular_native, ?_, ⟨by simp, by simp⟩, rfl, ?_⟩ ?_
    · rintro c ⟨⟩
      simp [FieldsRegular]
    · rintro c ⟨⟩
      rfl
    · simpa using ⟨hn, ht, ha⟩
  · obtain rfl := Option.some.inj hp
    obtain ⟨hn, ht, hv⟩ := h _ List.mem_cons_self
    refine T.typed ?_ (by simp [FieldsRegular]) rfl
    simpa using ⟨hn, ht, hv⟩
  · obtain rfl := Option.some.inj hp
    obtain ⟨hn, ht, hv⟩ := h _ List.mem_cons_self
    refine T.typed ?_ (by simp [FieldsRegular]) rfl
    simpa using ⟨hn, ht, hv⟩
  · cases hp

theorem genDecl_holds {d : GenDecl} {specs : List SpecParts} (h : ∀ s ∈ specs, s.All T.Holds) :
    T.Holds (genDecl d specs) := by
  have hwhole : T.Holds (native d.key
      (.genDecl d.pos d.keyword d.lparen (specs.map (·.whole)) d.rparen)) := by
    refine T.native ?_
    simpa [Children.genDecl] using fun s hs => (h s hs).whole
  unfold genDecl
  split
  · exact T.firstOf (typedDecl?_holds h ‹_›) hwhole
  · exact hwhole

theorem handSide_holds {ps : List Plan} (h : ∀ p ∈ ps, T.Holds p) : T.Holds (handSide ps) := by
  unfold handSide
  split
  · exact T.absent
  · exact h _ (by simp)
  · exact T.shared (.mono (by simpa using h)) (by simp [FieldsRegular]) rfl

theorem assign_holds {key : Key} {lhs rhs : List Plan} {opPos : Pos} {op : Lexeme}
    (hl : ∀ p ∈ lhs, T.Holds p) (hr : ∀ p ∈ rhs, T.Holds p) :
    T.Holds (assign key lhs opPos op rhs) := by
  have hchildren : ∀ c ∈ Children.assign lhs opPos op rhs, c.All T.Holds := by simpa [Children.assign] using ⟨hl, hr⟩
  unfold assign
  simp only
  split
  · exact T.orNative (.mono (by simpa using ⟨hl, hr⟩)) (by simp [FieldsRegular]) rfl hchildren
  split
  · exact T.orNative (by simp [handSide_holds hl, handSide_holds hr])
      (by simp [FieldsRegular, text]) rfl hchildren
  · exact T.native hchildren

theorem switch_holds {key : Key} {pos : Pos} {header body : Plan} (hh : T.Holds header)
    (hb : T.Holds body) : T.Holds (switch key pos header body) :=
  T.orNative_nil (by simp [hh, hb]) (by simp [FieldsRegular]) rfl

theorem funcLit_holds {type : FuncType} {body : Block} {func : Option Pos}
    {typeParams results : Option Plan} {params block : Plan}
    (hmem : ((Expr.funcLit type body).key, body) ∈ T.functions) (ht : ∀ p ∈ typeParams, T.Holds p)
    (hr : ∀ p ∈ results, T.Holds p) (hp : T.Holds params) (hb : T.Holds block) :
    T.Holds (funcLit (Expr.funcLit type body).key func typeParams params results block
      (Flow.blocksOf body)) := by
  refine T.firstOf (T.node ⟨?_, by simp, ⟨rfl, rfl, ⟨_, rfl, ?_⟩, ?_⟩, rfl, by simp⟩ ?_)
    (T.native (by simp))
  · simp [FieldsRegular]
  · rintro bs ⟨⟩
    exact ⟨body, hmem, rfl⟩
  · simp
  · simpa using ⟨hp, hr, ht, hb⟩

/-! ## Constructs -/

mutual

theorem ofFieldList_holds (role : ListRole) :
    (l : FieldList) → l.functions ⊆ T.functions → T.Holds (ofFieldList facts role l)
  | ⟨opening, fields, closing⟩, h => by
    rw [ofFieldList]
    exact T.native (by simpa [Children.fieldList] using ofFields_holds role fields h)

theorem ofOptionFieldList_holds (role : ListRole) :
    (l : Option FieldList) → functionsOfFieldList l ⊆ T.functions →
    ∀ p ∈ ofOptionFieldList facts role l, T.Holds p
  | none, _ => by simp [ofOptionFieldList]
  | some l, h => by simpa [ofOptionFieldList] using ofFieldList_holds role l h

theorem ofFields_holds (role : ListRole) :
    (fields : List Field) → functionsOfFields fields ⊆ T.functions →
    ∀ p ∈ ofFields facts role fields, T.Holds p
  | [], _ => by simp [ofFields]
  | ⟨names, type, tag⟩ :: fields, h => by
    obtain ⟨htype, hfields⟩ := List.append_subset.mp h
    rw [ofFields, List.forall_mem_cons]
    exact ⟨field_holds (ofExpr_holds type htype), ofFields_holds role fields hfields⟩

theorem ofFuncType_holds :
    (t : FuncType) → t.functions ⊆ T.functions → T.Holds (ofFuncType facts t)
  | ⟨func, typeParams, params, results⟩, h => by
    simp only [FuncType.functions, List.append_subset] at h
    obtain ⟨⟨htypeParams, hparams⟩, hresults⟩ := h
    rw [ofFuncType]
    refine T.native ?_
    simp only [Children.funcType, List.forall_mem_cons]
    exact ⟨trivial, ofOptionFieldList_holds _ typeParams htypeParams,
      by simpa using ofFieldList_holds _ params hparams,
      ofOptionFieldList_holds _ results hresults, by simp⟩

theorem ofBlock_holds : (b : Block) → b.functions ⊆ T.functions → T.Holds (ofBlock facts b)
  | ⟨lbrace, stmts, rbrace⟩, h => by
    rw [ofBlock]
    exact T.typed (by simpa using ofStmts_holds stmts h) (by simp [FieldsRegular]) rfl

theorem ofCall_holds : (c : Call) → c.functions ⊆ T.functions → T.Holds (ofCall facts c)
  | ⟨callee, lparen, args, ellipsis, rparen⟩, h => by
    obtain ⟨hcallee, hargs⟩ := List.append_subset.mp h
    rw [ofCall]
    exact T.typed (by simpa using ⟨ofExpr_holds callee hcallee, ofExprs_holds args hargs⟩)
      (by simp [FieldsRegular]) rfl

theorem ofSpec_holds : (s : Spec) → s.functions ⊆ T.functions → (ofSpec facts s).All T.Holds
  | .importSpec name path stop, _ => importSpec_holds _ name path
  | .value names typed values, h => by
    obtain ⟨htyped, hvalues⟩ := List.append_subset.mp h
    rw [ofSpec]
    exact ⟨by simp, ofOption_holds typed htyped, ofExprs_holds values hvalues⟩
  | .type name typeParams assign aliased, h => by
    obtain ⟨htypeParams, haliased⟩ := List.append_subset.mp h
    rw [ofSpec]
    exact ⟨ofIdent_holds T facts name, ofOptionFieldList_holds _ typeParams htypeParams,
      ofExpr_holds aliased haliased⟩

theorem ofSpecs_holds :
    (ss : List Spec) → functionsOfSpecs ss ⊆ T.functions → ∀ s ∈ ofSpecs facts ss, s.All T.Holds
  | [], _ => by simp [ofSpecs]
  | s :: ss, h => by
    obtain ⟨hs, hss⟩ := List.append_subset.mp h
    rw [ofSpecs, List.forall_mem_cons]
    exact ⟨ofSpec_holds s hs, ofSpecs_holds ss hss⟩

theorem ofGenDecl_holds :
    (d : GenDecl) → d.functions ⊆ T.functions → T.Holds (ofGenDecl facts d)
  | ⟨pos, keyword, lparen, specs, rparen⟩, h => by
    rw [ofGenDecl]
    exact genDecl_holds (ofSpecs_holds specs h)

theorem ofExpr_holds : (e : Expr) → e.functions ⊆ T.functions → T.Holds (ofExpr facts e)
  | .bad .., _ => by
    rw [ofExpr]
    exact T.native (by simp)
  | .ident x, _ => by
    rw [ofExpr]
    exact ofIdent_holds T facts x
  | .literal x, _ => by
    rw [ofExpr]
    exact ofLiteral_holds T x
  | .ellipsis pos elem, h => by
    rw [ofExpr]
    exact T.orNative_nil (by simpa using ofOption_holds elem h) (by simp [FieldsRegular]) rfl
  | .funcLit ⟨func, typeParams, params, results⟩ body, h => by
    simp only [Expr.functions, FuncType.functions, List.append_subset, List.cons_append,
      List.cons_subset] at h
    obtain ⟨hmem, ⟨⟨htypeParams, hparams⟩, hresults⟩, hbody⟩ := h
    rw [ofExpr]
    exact funcLit_holds hmem (ofOptionFieldList_holds _ typeParams htypeParams)
      (ofOptionFieldList_holds _ results hresults) (ofFieldList_holds _ params hparams)
      (ofBlock_holds body hbody)
  | .composite type lbrace elems rbrace, h => by
    obtain ⟨htype, helems⟩ := List.append_subset.mp h
    rw [ofExpr]
    exact T.orNative_nil (by simpa using ⟨ofOption_holds type htype, ofExprs_holds elems helems⟩)
      (by simp [FieldsRegular]) rfl
  | .paren lparen x rparen, h => by
    rw [ofExpr]
    exact T.orNative_nil (by simpa using ofExpr_holds x h) (by simp [FieldsRegular]) rfl
  | .selector x name, h => by
    rw [ofExpr]
    exact T.orNative_nil (by simpa using ofExpr_holds x h) (by simp [FieldsRegular]) rfl
  | .index x lbrack i rbrack, h => by
    obtain ⟨hx, hi⟩ := List.append_subset.mp h
    rw [ofExpr]
    exact T.orNative_nil (by simpa using ⟨ofExpr_holds x hx, ofExpr_holds i hi⟩)
      (by simp [FieldsRegular]) rfl
  | .indexList x lbrack indices rbrack, h => by
    obtain ⟨hx, hindices⟩ := List.append_subset.mp h
    rw [ofExpr]
    exact T.orNative_nil (by simpa using ⟨ofExpr_holds x hx, ofExprs_holds indices hindices⟩)
      (by simp [FieldsRegular]) rfl
  | .slice x lbrack low high max full rbrack, h => by
    simp only [Expr.functions, List.append_subset] at h
    obtain ⟨⟨⟨hx, hlow⟩, hhigh⟩, hmax⟩ := h
    rw [ofExpr]
    exact T.orNative_nil
      (by simpa using ⟨ofExpr_holds x hx, ofOption_holds low hlow, ofOption_holds high hhigh,
        ofOption_holds max hmax⟩)
      (by simp [FieldsRegular]) rfl
  | .typeAssert x lparen type rparen, h => by
    obtain ⟨hx, htype⟩ := List.append_subset.mp h
    rw [ofExpr]
    exact T.orNative_nil (by simpa using ⟨ofExpr_holds x hx, ofOption_holds type htype⟩)
      (by simp [FieldsRegular]) rfl
  | .call c, h => by
    rw [ofExpr]
    exact T.firstOf (ofCall_holds c h) (T.native (by simp))
  | .star pos x, h => by
    rw [ofExpr]
    exact T.orNative_nil (by simpa using ofExpr_holds x h) (by simp [FieldsRegular]) rfl
  | .unary opPos op x, h => by
    have hx : T.Holds (ofExpr facts x) := ofExpr_holds x h
    have hchildren : ∀ c ∈ Children.unary opPos op (ofExpr facts x), c.All T.Holds := by
      simpa [Children.unary] using hx
    rw [ofExpr]
    split
    · exact T.orNative (by simpa using hx) (by simp [FieldsRegular, text]) rfl hchildren
    · exact T.native hchildren
  | .binary x opPos op y, h => by
    have hx : T.Holds (ofExpr facts x) := ofExpr_holds x (List.append_subset.mp h).1
    have hy : T.Holds (ofExpr facts y) := ofExpr_holds y (List.append_subset.mp h).2
    have hchildren : ∀ c ∈ Children.binary (ofExpr facts x) opPos op (ofExpr facts y),
        c.All T.Holds := by
      simpa [Children.binary] using ⟨hx, hy⟩
    rw [ofExpr]
    split
    · exact T.orNative (by simpa using ⟨hx, hy⟩) (by simp [FieldsRegular, text]) rfl hchildren
    · exact T.native hchildren
  | .keyValue key colon value, h => by
    obtain ⟨hkey, hvalue⟩ := List.append_subset.mp h
    rw [ofExpr]
    exact T.orNative_nil (by simpa using ⟨ofExpr_holds key hkey, ofExpr_holds value hvalue⟩)
      (by simp [FieldsRegular]) rfl
  | .arrayType lbrack len elem, h => by
    obtain ⟨hlen, helem⟩ := List.append_subset.mp h
    rw [ofExpr]
    exact T.orNative_nil (by simpa using ⟨ofOption_holds len hlen, ofExpr_holds elem helem⟩)
      (by split <;> simp [FieldsRegular]) rfl
  | .structType pos fields, h => by
    rw [ofExpr]
    exact T.native (by simpa [Children.structType] using ofFieldList_holds _ fields h)
  | .funcType type, h => by
    rw [ofExpr]
    exact ofFuncType_holds type h
  | .interfaceType pos methods, h => by
    rw [ofExpr]
    exact T.native (by simpa [Children.interfaceType] using ofFieldList_holds _ methods h)
  | .mapType pos key value, h => by
    obtain ⟨hkey, hvalue⟩ := List.append_subset.mp h
    rw [ofExpr]
    exact T.orNative_nil (by simpa using ⟨ofExpr_holds key hkey, ofExpr_holds value hvalue⟩)
      (by simp [FieldsRegular]) rfl
  | .chanType pos arrow dir value, h => by
    rw [ofExpr]
    exact T.native (by simpa [Children.chanType] using ofExpr_holds value h)

theorem ofOption_holds :
    (x : Option Expr) → functionsOfOption x ⊆ T.functions → ∀ p ∈ ofOption facts x, T.Holds p
  | none, _ => by simp [ofOption]
  | some x, h => by simpa [ofOption] using ofExpr_holds x h

theorem ofExprs_holds :
    (xs : List Expr) → functionsOfExprs xs ⊆ T.functions → ∀ p ∈ ofExprs facts xs, T.Holds p
  | [], _ => by simp [ofExprs]
  | x :: xs, h => by
    obtain ⟨hx, hxs⟩ := List.append_subset.mp h
    rw [ofExprs, List.forall_mem_cons]
    exact ⟨ofExpr_holds x hx, ofExprs_holds xs hxs⟩

theorem ofStmt_holds : (s : Stmt) → s.functions ⊆ T.functions → T.Holds (ofStmt facts s)
  | .bad .., _ => by
    rw [ofStmt]
    exact T.native (by simp)
  | .decl d, h => by
    rw [ofStmt]
    exact ofGenDecl_holds d h
  | .empty pos implicit, _ => by
    rw [ofStmt]
    split
    · exact T.absent
    · exact T.native (by simp [Children.empty])
  | .labeled label colon stmt, h => by
    rw [ofStmt]
    exact T.native (by simpa [Children.labeled] using ofStmt_holds stmt h)
  | .expr x, h => by
    rw [ofStmt]
    exact T.orNative_nil (by simpa using ofExpr_holds x h) (by simp [FieldsRegular]) rfl
  | .send chan arrow value, h => by
    obtain ⟨hchan, hvalue⟩ := List.append_subset.mp h
    rw [ofStmt]
    exact T.native (by
      simpa [Children.send] using ⟨ofExpr_holds chan hchan, ofExpr_holds value hvalue⟩)
  | .incDec x opPos op, h => by
    rw [ofStmt]
    exact T.orNative_nil (by simpa using ofExpr_holds x h) (by simp [FieldsRegular, text]) rfl
  | .assign lhs opPos op rhs, h => by
    obtain ⟨hlhs, hrhs⟩ := List.append_subset.mp h
    rw [ofStmt]
    exact assign_holds (ofExprs_holds lhs hlhs) (ofExprs_holds rhs hrhs)
  | .go pos call, h => by
    rw [ofStmt]
    exact T.native (by simpa [Children.go] using ofCall_holds call h)
  | .defer pos call, h => by
    rw [ofStmt]
    exact T.native (by simpa [Children.defer] using ofCall_holds call h)
  | .ret pos results, h => by
    rw [ofStmt]
    exact T.orNative_nil (by simpa using ofExprs_holds results h) (by simp [FieldsRegular]) rfl
  | .branch pos word label, _ => by
    have hchildren : ∀ c ∈ Children.branch pos word (label.map (ofIdent facts)), c.All T.Holds := by
      simp [Children.branch]
    rw [ofStmt]
    split
    · exact T.orNative (by simp) (by simp [FieldsRegular, text]) rfl hchildren
    · exact T.native hchildren
  | .block b, h => by
    rw [ofStmt]
    exact ofBlock_holds b h
  | .ite pos init cond body otherwise, h => by
    simp only [Stmt.functions, List.append_subset] at h
    obtain ⟨⟨⟨hinit, hcond⟩, hbody⟩, hotherwise⟩ := h
    have hinit : ∀ p ∈ ofOptionStmt facts init, T.Holds p := ofOptionStmt_holds init hinit
    have hcond : T.Holds (ofExpr facts cond) := ofExpr_holds cond hcond
    rw [ofStmt]
    refine T.orNative_nil ?_ (by simp [FieldsRegular]) rfl
    simp (disch := decide) only [stepsHold_one, stepsHold_nil, and_true, Trait.holds_lexeme,
      true_and, Trait.holds_option]
    refine ⟨?_, ofBlock_holds body hbody, ofOptionStmt_holds otherwise hotherwise⟩
    split
    · rename_i i hi
      exact T.group (by simpa using ⟨hinit i hi, hcond⟩)
    · exact hcond
  | .caseClause pos exprs colon body, h => by
    obtain ⟨hexprs, hstmts⟩ := List.append_subset.mp h
    have hlist : T.Holds (group "CaseExprList" (itemSteps "List" (ofExprs facts exprs))) :=
      T.group (.mono (by simpa using ofExprs_holds exprs hexprs))
    have hbody : T.Holds (clauseBody (itemSteps "Body" (ofStmts facts body))) :=
      T.clauseBody (by simp) (by simpa using ofStmts_holds body hstmts)
    rw [ofStmt]
    exact T.orNative_nil (by simpa using ⟨hlist, hbody⟩) (by simp [FieldsRegular]) rfl
  | .switch pos init tag body, h => by
    simp only [Stmt.functions, List.append_subset] at h
    obtain ⟨⟨hinit, htag⟩, hbody⟩ := h
    rw [ofStmt]
    exact switch_holds
      (T.group (by simpa using ⟨ofOptionStmt_holds init hinit, ofOption_holds tag htag⟩))
      (ofBlock_holds body hbody)
  | .typeSwitch pos init assign body, h => by
    simp only [Stmt.functions, List.append_subset] at h
    obtain ⟨⟨hinit, hassign⟩, hbody⟩ := h
    rw [ofStmt]
    exact switch_holds
      (T.group (by simpa using ⟨ofOptionStmt_holds init hinit, ofStmt_holds assign hassign⟩))
      (ofBlock_holds body hbody)
  | .commClause pos comm colon body, h => by
    obtain ⟨hcomm, hbody⟩ := List.append_subset.mp h
    rw [ofStmt]
    exact T.native (by
      simpa [Children.commClause] using
        ⟨ofOptionStmt_holds comm hcomm, ofStmts_holds body hbody⟩)
  | .select pos body, h => by
    rw [ofStmt]
    exact T.native (by simpa [Children.select] using ofBlock_holds body h)
  | .forLoop pos init cond post body, h => by
    simp only [Stmt.functions, List.append_subset] at h
    obtain ⟨⟨⟨hinit, hcond⟩, hpost⟩, hbody⟩ := h
    have hcond : ∀ p ∈ ofOption facts cond, T.Holds p := ofOption_holds cond hcond
    rw [ofStmt]
    refine T.orNative_nil ?_ (by simp [FieldsRegular, text]) rfl
    simp (disch := decide) only [stepsHold_one, stepsHold_nil, and_true, Trait.holds_lexeme,
      true_and]
    refine ⟨?_, ofBlock_holds body hbody⟩
    split
    · simpa using hcond
    · exact T.group (by
        simpa using ⟨ofOptionStmt_holds init hinit, hcond, ofOptionStmt_holds post hpost⟩)
  | .range pos key value opPos op rangePos x body, h => by
    simp only [Stmt.functions, List.append_subset] at h
    obtain ⟨⟨⟨hkey, hvalue⟩, hx⟩, hbody⟩ := h
    have hassigned : T.Holds (match op with
        | some w => lexeme opPos w
        | none => absent) := by
      cases op <;> simp
    rw [ofStmt.eq_def]
    refine T.orNative_nil ?_ (by simp [FieldsRegular, text]) rfl
    simp (disch := decide) only [stepsHold_one, stepsHold_nil, and_true, Trait.holds_lexeme,
      true_and]
    refine ⟨T.group ?_, ofBlock_holds body hbody⟩
    simp (disch := decide) only [stepsHold_one, stepsHold_nil, and_true, Trait.holds_option]
    exact ⟨ofOption_holds key hkey, ofOption_holds value hvalue, hassigned, ofExpr_holds x hx⟩

theorem ofOptionStmt_holds :
    (s : Option Stmt) → functionsOfStmt s ⊆ T.functions → ∀ p ∈ ofOptionStmt facts s, T.Holds p
  | none, _ => by simp [ofOptionStmt]
  | some s, h => by simpa [ofOptionStmt] using ofStmt_holds s h

theorem ofStmts_holds :
    (ss : List Stmt) → functionsOfStmts ss ⊆ T.functions → ∀ p ∈ ofStmts facts ss, T.Holds p
  | [], _ => by simp [ofStmts]
  | s :: ss, h => by
    obtain ⟨hs, hss⟩ := List.append_subset.mp h
    rw [ofStmts, List.forall_mem_cons]
    exact ⟨ofStmt_holds s hs, ofStmts_holds ss hss⟩

end

theorem ofFunc_holds {recv : Option FieldList} {name : Ident} {type : FuncType}
    {body : Option Block} (h : (Decl.func recv name type body).functions ⊆ T.functions) :
    T.Holds (ofFunc facts recv name type body) := by
  obtain ⟨func, typeParams, params, results⟩ := type
  simp only [Decl.functions, FuncType.functions, List.append_subset] at h
  obtain ⟨⟨⟨hbody, hrecv⟩, ⟨htypeParams, hparams⟩, hresults⟩, hblock⟩ := h
  refine T.node ⟨?_, by simp, ⟨rfl, rfl, ⟨_, rfl, ?_⟩, ?_⟩, rfl, by simp⟩ ?_
  · simp [FieldsRegular]
  · intro bs hbs
    obtain ⟨b, hb, rfl⟩ := Option.map_eq_some_iff.mp hbs
    obtain rfl : body = some b := hb
    exact ⟨b, hbody List.mem_cons_self, rfl⟩
  · simp
  · simp (disch := decide) only [stepsHold_tagged, stepsHold_one, stepsHold_nil, and_true,
      Trait.holds_lexeme, true_and, Trait.holds_option]
    refine ⟨ofOptionFieldList_holds _ recv hrecv, ofIdent_holds T facts name,
      ofOptionFieldList_holds _ _ htypeParams, ofFieldList_holds _ _ hparams,
      ofOptionFieldList_holds _ _ hresults, ?_⟩
    intro p hp
    obtain ⟨b, rfl, rfl⟩ := Option.map_eq_some_iff.mp hp
    exact ofBlock_holds b hblock

theorem ofDecl_holds (d : Decl) (h : d.functions ⊆ T.functions) : T.Holds (ofDecl facts d) := by
  cases d with
  | bad start stop => exact T.native (by simp)
  | gen g => exact ofGenDecl_holds g h
  | func recv name type body => exact ofFunc_holds h

theorem decls_holds {decls : List Decl} (h : decls.flatMap Decl.functions ⊆ T.functions) :
    T.Holds (group "Decls([]Decl)" (itemSteps "Decls" (decls.map (ofDecl facts)))) := by
  have hdecls : ∀ d ∈ decls, T.Holds (ofDecl facts d) := fun d hd =>
    ofDecl_holds d fun f hf => h (List.mem_flatMap_of_mem hd hf)
  exact T.group (.mono (by simpa using hdecls))

variable (T) (facts)

theorem packageClause_holds (f : File) : T.Holds (packageClause facts f) :=
  T.typed (by simp) (by simp [FieldsRegular]) rfl

/-- The plan for a file has every trait. -/
theorem ofFile_holds {f : File} (h : f.functions ⊆ T.functions) : T.Holds (ofFile facts f) := by
  refine T.typed ?_ (by simp [FieldsRegular]) rfl
  simpa [packageClause_holds] using decls_holds h

variable {facts}

theorem ofExpr_regular (e : Expr) : (ofExpr facts e).Regular e.functions :=
  ofExpr_holds (T := .regular _) e (List.Subset.refl _)

/-- The plan for a file is regular, with the functions of the file. -/
theorem ofFile_regular (f : File) : (ofFile facts f).Regular f.functions :=
  ofFile_holds (.regular _) facts (List.Subset.refl _)

/-- In the plan for a file, nodes of the types for names are leaves that show a name. -/
theorem ofFile_named (f : File) : (ofFile facts f).Named :=
  ofFile_holds (.named _) facts (List.Subset.refl _)

end LosslessGo.Plan
