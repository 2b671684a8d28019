import LosslessGo.Proofs.Draft.Yields
import LosslessGo.Plan.Build
import LosslessGo.Plan.OfSyntax

/-!
# Plans that make a node

In strict mode no leaf is left out, so that carrying out a plan makes a node where the plan ends with a
leaf or with a node that has an origin (`Plan.IsSure`). The plans for names and expressions do.
-/

namespace LosslessGo

open Go (Key Pos Ident Literal Expr Children)

variable {set : Setting} {d : Draft} {label : String}

/-- Nothing is said about names. -/
def Facts.none : Facts := ⟨fun _ => Option.none, fun _ => []⟩

/-- The plan ends with a leaf, or with a node that has an origin. -/
inductive Plan.IsSure : Plan → Prop where
  | leaf (pos : Pos) (text : String) (kind : TokenKind) (form : LeafForm) :
    IsSure (.leaf pos text kind form)
  | node (scope : Scope) (key : Key) (type : NodeType) (fields : List (String × FieldPlan))
    (steps : List Step) : IsSure (.node scope ⟨some key, type, fields⟩ none steps)
  | firstOf (first : Plan) {second : Plan} : IsSure second → IsSure (.firstOf first second)

namespace Build

variable {key : Key} {type : NodeType} {fields : Fields} {children : List NodeId} {kind : TokenKind}
  {offset stop : Nat} {expected : String}

theorem leaf_isSome (hstrict : set.strict = true) :
    Yields (leaf set offset stop kind type fields) d fun x _ => x.isSome = true := by
  refine leaf_yields.mono ?_
  rintro x d' (⟨-, -, -, -, hlenient⟩ | ⟨n, -, rfl, -⟩)
  · simp [hstrict] at hlenient
  · rfl

theorem expectedLeaf_isSome (hstrict : set.strict = true) :
    Yields (expectedLeaf set offset expected kind type fields) d fun x _ => x.isSome = true := by
  refine expectedLeaf_yields.mono fun x d' hx => ?_
  cases hx with
  | none hlenient => simp [hstrict] at hlenient
  | some => rfl

theorem node_isSome (hstrict : set.strict = true) :
    Yields (node set (some key) type fields children) d fun x _ => x.isSome = true := by
  cases children with
  | cons first rest => exact .bind fun _ _ _ => .bind fun _ _ _ => .bind fun _ _ _ => .pure rfl
  | nil =>
    refine .bind ((leaf_isSome hstrict).mono fun x d' hx => ?_)
    obtain ⟨i, rfl⟩ := Option.isSome_iff_exists.mp hx
    exact .bind fun _ _ _ => .pure rfl

end Build

namespace Plan

/-- In strict mode such a plan makes a node. -/
theorem IsSure.isSome {p : Plan} (h : p.IsSure) (hstrict : set.strict = true) :
    Yields (p.build set label) d fun x _ => x.isSome = true := by
  induction h generalizing d with
  | leaf pos text kind form => cases form <;> exact Build.expectedLeaf_isSome hstrict
  | node scope key type fields steps =>
    rw [Plan.build]
    refine .bind fun _ _ _ => .bind fun made _ _ => .bind fun graph _ _ => .bind ?_
    exact .bind (.get ((Build.node_isSome hstrict).mono fun _ _ hx => .pure hx))
  | firstOf first _ ih =>
    rw [Plan.build]
    refine .bind fun x _ _ => ?_
    cases x with
    | some i => exact .pure rfl
    | none => exact ih

/-- In strict mode the second plan is not needed behind such a plan. -/
theorem IsSure.of_build_firstOf {first second : Plan} (h : first.IsSure) (hstrict : set.strict = true) :
    Yields ((Plan.firstOf first second).build set label) d fun x d' =>
      first.build set label d = .ok x d' := by
  rw [Plan.build]
  refine .bind fun x d₁ hx => ?_
  obtain ⟨i, rfl⟩ := Option.isSome_iff_exists.mp (h.isSome hstrict x d₁ hx)
  exact .pure hx

variable (facts : Facts)

@[simp] theorem native_isSure (key : Key) (children : Children Plan) : (native key children).IsSure :=
  .node ..

@[simp] theorem orNative_isSure (key : Key) (type : NodeType) (fields : List (String × FieldPlan))
    (steps : List Step) (children : Children Plan) :
    (orNative key type fields steps children).IsSure := .firstOf _ (native_isSure key children)

theorem ofIdent_isSure (x : Ident) : (ofIdent facts x).IsSure := by
  unfold ofIdent
  split
  · exact .node ..
  · split <;> exact .node ..

theorem ofLiteral_isSure (x : Literal) : (ofLiteral x).IsSure := by
  unfold ofLiteral
  split
  · split <;> exact .leaf ..
  all_goals exact .leaf ..

theorem ofExpr_isSure (e : Expr) : (ofExpr facts e).IsSure := by
  cases e with
  | ident x =>
    rw [ofExpr]
    exact ofIdent_isSure facts x
  | literal x =>
    rw [ofExpr]
    exact ofLiteral_isSure x
  | funcLit type body =>
    obtain ⟨func, typeParams, params, results⟩ := type
    rw [ofExpr]
    exact .firstOf _ (native_isSure ..)
  | call c =>
    rw [ofExpr]
    exact .firstOf _ (native_isSure ..)
  | unary opPos op x =>
    rw [ofExpr]
    split <;> simp
  | binary x opPos op y =>
    rw [ofExpr]
    split <;> simp
  | funcType type =>
    obtain ⟨func, typeParams, params, results⟩ := type
    rw [ofExpr, ofFuncType]
    exact native_isSure ..
  | _ =>
    rw [ofExpr]
    simp

end Plan

end LosslessGo
