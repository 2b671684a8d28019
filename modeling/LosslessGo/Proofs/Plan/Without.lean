import LosslessGo.Plan.Build
import LosslessGo.Plan.OfSyntax
import LosslessGo.Proofs.Draft.Along

/-!
# Plans without some of their fields

`Plan.without` leaves hidden fields out of the nodes of a plan. The plan then makes the same nodes,
hidden fields apart (`Plan.build_along`), since no step looks at a field that was filled in before.

* `Plan.typed_without`, `Plan.native_without` and the lemmas beside them: `without` goes through the
  parts of a plan.
* `Plan.build_along`, `runSteps_along`: carrying out a plan with and without hidden fields.
-/

namespace LosslessGo

open Go (Key Pos Child Children)

variable {hidden : Hidden}

/-- The planned node without its hidden fields. -/
def Head.without (hidden : Hidden) (h : Head) : Head :=
  { h with fields := h.fields.filter (·.1 ∉ hidden h.type) }

/-- The planned leaf without its hidden fields. -/
def LeafForm.without (hidden : Hidden) : LeafForm → LeafForm
  | .token n => .token n
  | .typed type fields => .typed type (fields.without (hidden type))

mutual

/-- The plan without the hidden fields of its nodes. -/
def Plan.without (hidden : Hidden) : Plan → Plan
  | .absent => .absent
  | .leaf pos text kind form => .leaf pos text kind (form.without hidden)
  | .endMark => .endMark
  | .node scope head cover steps =>
    .node scope (head.without hidden) (cover.map (·.without hidden)) (stepsWithout hidden steps)
  | .clauseBody steps => .clauseBody (stepsWithout hidden steps)
  | .firstOf first second => .firstOf (first.without hidden) (second.without hidden)

/-- The parts without the hidden fields of their nodes. -/
def partsWithout (hidden : Hidden) : List Part → List Part
  | [] => []
  | ⟨tag, label, plan⟩ :: parts => ⟨tag, label, plan.without hidden⟩ :: partsWithout hidden parts

/-- The steps without the hidden fields of the nodes that they make. -/
def stepsWithout (hidden : Hidden) : List Step → List Step
  | [] => []
  | .opening ⟨tag, label, plan⟩ :: steps =>
    .opening ⟨tag, label, plan.without hidden⟩ :: stepsWithout hidden steps
  | .together parts :: steps => .together (partsWithout hidden parts) :: stepsWithout hidden steps

end

/-! ## Steps -/

section Steps

variable {tag label : String} {p : Plan} {ps : List Plan} {steps steps' : List Step}

@[simp] theorem stepsWithout_nil : stepsWithout hidden [] = [] := rfl

@[simp] theorem stepsWithout_opening :
    stepsWithout hidden (.opening ⟨tag, label, p⟩ :: steps) =
      .opening ⟨tag, label, p.without hidden⟩ :: stepsWithout hidden steps := rfl

@[simp] theorem stepsWithout_together {parts : List Part} :
    stepsWithout hidden (.together parts :: steps) =
      .together (partsWithout hidden parts) :: stepsWithout hidden steps := rfl

@[simp] theorem partsWithout_nil : partsWithout hidden [] = [] := rfl

@[simp] theorem partsWithout_cons {parts : List Part} :
    partsWithout hidden (⟨tag, label, p⟩ :: parts) =
      ⟨tag, label, p.without hidden⟩ :: partsWithout hidden parts := rfl

@[simp] theorem stepsWithout_one :
    stepsWithout hidden (.one label p :: steps) =
      .one label (p.without hidden) :: stepsWithout hidden steps := rfl

@[simp] theorem stepsWithout_tagged :
    stepsWithout hidden (.tagged tag label p :: steps) =
      .tagged tag label (p.without hidden) :: stepsWithout hidden steps := rfl

@[simp] theorem stepsWithout_append :
    stepsWithout hidden (steps ++ steps') =
      stepsWithout hidden steps ++ stepsWithout hidden steps' := by
  induction steps with
  | nil => rfl
  | cons s steps ih =>
    cases s with
    | opening part =>
      obtain ⟨tag, label, p⟩ := part
      simp [ih]
    | together parts => simp [ih]

theorem partsWithout_eq_map (parts : List Part) :
    partsWithout hidden parts =
      parts.map fun part => ⟨part.tag, part.label, part.plan.without hidden⟩ := by
  induction parts with
  | nil => rfl
  | cons part parts ih =>
    obtain ⟨tag, label, p⟩ := part
    simp [ih]

@[simp] theorem partsWithout_itemParts :
    partsWithout hidden (itemParts tag ps) = itemParts tag (ps.map (·.without hidden)) := by
  simp [partsWithout_eq_map, itemParts, List.zipIdx_map]

@[simp] theorem stepsWithout_itemSteps :
    stepsWithout hidden (itemSteps tag ps) = itemSteps tag (ps.map (·.without hidden)) := by
  rw [itemSteps, itemSteps, ← partsWithout_itemParts]
  induction itemParts tag ps with
  | nil => rfl
  | cons part parts ih =>
    obtain ⟨tag, label, p⟩ := part
    simp [ih]

end Steps

/-! ## Plans -/

/-- The child with `f` applied to its items. -/
def Go.Child.map {α β : Type} (f : α → β) : Child α → Child β
  | .token pos word => .token pos word
  | .scalar => .scalar
  | .one sort x => .one sort (x.map f)
  | .many sort xs => .many sort (xs.map f)

namespace Plan

variable {key : Key} {type : NodeType} {fields : List (String × FieldPlan)} {steps : List Step}
  {children : Children Plan} {label : String} {p q : Plan}

@[simp] theorem absent_without : absent.without hidden = absent := rfl

@[simp] theorem endMark_without : endMark.without hidden = endMark := rfl

@[simp] theorem firstOf_without :
    (firstOf p q).without hidden = firstOf (p.without hidden) (q.without hidden) := rfl

@[simp] theorem clauseBody_without :
    (clauseBody steps).without hidden = clauseBody (stepsWithout hidden steps) := rfl

@[simp] theorem lexeme_without (pos : Option Pos) (word : Go.Lexeme) :
    (lexeme pos word).without hidden = lexeme pos word := by
  cases pos <;> rfl

@[simp] theorem option_without (p : Option Plan) :
    (option p).without hidden = option (p.map (·.without hidden)) := by
  cases p <;> rfl

@[simp] theorem typed_without :
    (typed key type fields steps).without hidden =
      typed key type (fields.filter (·.1 ∉ hidden type)) (stepsWithout hidden steps) := rfl

/-- Where nothing is hidden of nodes without a type. -/
theorem native_node_without (hnative : hidden .native = []) {scope : Scope} {origin : Option Key}
    {cover : Option Head} :
    (node scope ⟨origin, .native, fields⟩ cover steps).without hidden =
      node scope ⟨origin, .native, fields⟩ (cover.map (·.without hidden))
        (stepsWithout hidden steps) := by
  simp [Plan.without, Head.without, hnative]

@[simp] theorem group_without (hnative : hidden .native = []) :
    (group label steps).without hidden = group label (stepsWithout hidden steps) :=
  native_node_without hnative

theorem childSteps_without (hnative : hidden .native = []) (kind : Go.Kind) (name : String)
    (c : Child Plan) :
    stepsWithout hidden (childSteps kind name c) = childSteps kind name (c.map (·.without hidden)) := by
  unfold childSteps
  cases Go.ruleOf kind name <;> cases c <;> simp [Child.map, hnative]
  all_goals
    rename_i x
    cases x <;> simp

@[simp] theorem native_without (hnative : hidden .native = []) :
    (native key children).without hidden =
      native key (children.map (Child.map (·.without hidden))) := by
  have hsteps (names : List String) :
      stepsWithout hidden
          ((names.zip children).flatMap fun e => childSteps key.kind e.1 e.2) =
        (names.zip (children.map (Child.map (·.without hidden)))).flatMap fun e =>
          childSteps key.kind e.1 e.2 := by
    induction names generalizing children with
    | nil => rfl
    | cons name names ih =>
      cases children with
      | nil => rfl
      | cons c children => simp [childSteps_without hnative, ih]
  rw [native, native_node_without hnative]
  exact congrArg (node .shared ⟨some key, .native, nativeFields _⟩ none) (hsteps key.kind.fields)

@[simp] theorem orNative_without (hnative : hidden .native = []) :
    (orNative key type fields steps children).without hidden =
      orNative key type (fields.filter (·.1 ∉ hidden type)) (stepsWithout hidden steps)
        (children.map (Child.map (·.without hidden))) := by
  simp [orNative, hnative]

end Plan

/-! ## Carrying out a plan -/

variable {set : Setting} {strict : Bool} {d d' : Draft} {o : Outcome} {label : String}

namespace Draft.Alike

variable (h : d.Alike hidden d')

include h

theorem sourceNodes_eq (o : Outcome) : sourceNodes d o = sourceNodes d' o := by
  funext s
  cases s with
  | made tag => rfl
  | own => exact h.tree.visible_eq _
  | below tag => simp only [sourceNodes, h.tree.visible_eq, h.tree.children_eq]

theorem parametersOf_eq : parametersOf d = parametersOf d' := by
  funext list
  simp only [parametersOf, h.tree.visible_eq, h.tree.children_eq]

/-- Fields are filled in alike. -/
theorem fieldValue_eq (o : Outcome) (f : FieldPlan) : fieldValue d o f = fieldValue d' o f := by
  cases f <;> simp only [fieldValue, h.sourceNodes_eq, h.parametersOf_eq, h.rangeOf_eq,
    h.typeOf_eq, h.tree.visible_eq]

end Draft.Alike

namespace Build

variable {cs : List NodeId}

theorem enterScope_along (s : Scope) (hd : d.Alike hidden d') :
    Along set strict (enterScope s) d (enterScope s) d' fun _ => Draft.Alike hidden := by
  cases s with
  | shared => exact .pure hd
  | own body =>
    exact ⟨_, rfl, hd.tree, hd.tokens_eq, hd.comments_eq, hd.cursor_eq,
      congrArg Flow.IdScopes.enter hd.scopes_eq⟩

theorem leaveScope_along (s : Scope) (hd : d.Alike hidden d') :
    Along set strict (leaveScope s) d (leaveScope s) d' fun _ => Draft.Alike hidden := by
  cases s with
  | shared => exact .pure hd
  | own body =>
    have hleave : Along set strict leave d leave d' fun _ => Draft.Alike hidden := by
      refine ⟨d'.leave, ?_, hd.tree, hd.tokens_eq, hd.comments_eq, hd.cursor_eq,
        congrArg (fun s => s.leave.2) hd.scopes_eq⟩
      rw [leave, hd.scopes_eq]
    exact .bind (hleave.mono fun _ _ _ h => .pure h)

variable (hmode : strict = true → set.strict = true) (hshown : hidden.ShowsNumbers)

include hmode

theorem planned_along (pos : Pos) (text : String) (kind : TokenKind) (form : LeafForm)
    (hd : d.Alike hidden d') :
    Along set strict (planned set label pos text kind form) d
      (planned (set.inMode strict) label pos text kind (form.without hidden)) d'
      fun _ => Draft.Alike hidden := by
  cases form with
  | token n => exact expectedLeaf_along hmode hd rfl
  | typed type fields =>
    exact expectedLeaf_along hmode hd (Fields.without_without fields _).symm

include hshown

theorem head_along (h : Head) (hd : d.Alike hidden d') :
    Along set strict (head set o h cs) d (head (set.inMode strict) o (h.without hidden) cs) d'
      fun _ => Draft.Alike hidden := by
  refine .get (node_along hmode hshown hd (Fields.ordered_ofList) (Fields.ordered_ofList) ?_)
  simp only [fieldValues, Fields.without_ofList, Head.without, List.filter_map, List.filter_filter,
    hd.fieldValue_eq, Function.comp_def, Bool.and_self]

theorem clauseBlock_along (hd : d.Alike hidden d') :
    Along set strict (clauseBlock set cs) d (clauseBlock (set.inMode strict) cs) d'
      fun _ => Draft.Alike hidden := by
  have hsole : soleBlock? d = soleBlock? d' := by
    funext visible
    simp only [soleBlock?, hd.typeOf_eq]
  refine .get ?_
  simp only [hsole, hd.tree.visible_eq]
  split
  · exact .pure hd
  · exact node_along hmode hshown hd (Fields.ordered_ofList) (Fields.ordered_ofList) rfl

end Build

theorem Fill.gather_along {α : Type} {x y : Fill α} (h : Along set strict x ⟨d, #[]⟩ y ⟨d', #[]⟩
    fun _ => Filling.Alike hidden) :
    Along set strict (gather x) d (gather y) d' fun _ => Draft.Alike hidden := by
  simp only [Along, gather] at h ⊢
  cases hx : x ⟨d, #[]⟩ with
  | ok a f =>
    rw [hx] at h
    obtain ⟨f', hy, hf⟩ := h
    exact ⟨f'.draft, by simp only [hy, hf.children_eq], hf.draft⟩
  | error e f =>
    rw [hx] at h
    refine ⟨h.1, fun hm => ?_⟩
    obtain ⟨f', hy⟩ := h.2 hm
    exact ⟨f'.draft, by simp only [hy]⟩

mutual

/-- A plan makes the same nodes without hidden fields. -/
theorem Plan.build_along (hmode : strict = true → set.strict = true)
    (hshown : hidden.ShowsNumbers) (label : String) : (p : Plan) → ∀ {d d' : Draft},
    d.Alike hidden d' → Along set strict (p.build set label) d
      ((p.without hidden).build (set.inMode strict) label) d' fun _ => Draft.Alike hidden
  | .absent, _, _, hd => .pure hd
  | .leaf pos text kind form, _, _, hd => Build.planned_along hmode pos text kind form hd
  | .endMark, _, _, hd => Build.endMark_along hmode hd
  | .node scope head cover steps, d, d', hd => by
    rw [Plan.without, Plan.build, Plan.build]
    refine .bind ((Build.enterScope_along scope hd).mono fun _ _ _ h₁ => ?_)
    refine .bind ((Fill.gather_along (runSteps_along hmode hshown steps [] ⟨h₁, rfl⟩)).mono
      fun (made, cs) _ _ h₂ => ?_)
    refine .bind ((Build.leaveScope_along scope h₂).mono fun graph _ _ h₃ => ?_)
    refine .bind ((Build.head_along hmode hshown head h₃).mono fun core _ _ h₄ => ?_)
    cases cover with
    | none => exact .pure h₄
    | some outer => exact Build.head_along hmode hshown outer h₄
  | .clauseBody steps, d, d', hd => by
    rw [Plan.without, Plan.build, Plan.build]
    exact .bind ((Fill.gather_along (runSteps_along hmode hshown steps [] ⟨hd, rfl⟩)).mono
      fun _ _ _ h₁ => Build.clauseBlock_along hmode hshown h₁)
  | .firstOf first second, d, d', hd => by
    rw [Plan.without, Plan.build, Plan.build]
    refine .bind ((Plan.build_along hmode hshown label first hd).mono fun x _ _ h₁ => ?_)
    cases x with
    | some i => exact .pure h₁
    | none => exact Plan.build_along hmode hshown label second h₁

/-- Parts are made alike. -/
theorem buildParts_along (hmode : strict = true → set.strict = true)
    (hshown : hidden.ShowsNumbers) : (ps : List Part) → ∀ {d d' : Draft}, d.Alike hidden d' →
    Along set strict (buildParts set ps) d
      (buildParts (set.inMode strict) (partsWithout hidden ps)) d' fun _ => Draft.Alike hidden
  | [], _, _, hd => .pure hd
  | ⟨tag, label, plan⟩ :: parts, d, d', hd => by
    rw [partsWithout, buildParts, buildParts]
    refine .bind ((Plan.build_along hmode hshown label plan hd).mono fun _ _ _ h₁ => ?_)
    exact .bind ((buildParts_along hmode hshown parts h₁).mono fun _ _ _ h₂ => .pure h₂)

/-- Children are gathered alike. -/
theorem runSteps_along (hmode : strict = true → set.strict = true)
    (hshown : hidden.ShowsNumbers) : (steps : List Step) → (made : Made) → ∀ {f f' : Filling},
    f.Alike hidden f' → Along set strict (runSteps set steps made) f
      (runSteps (set.inMode strict) (stepsWithout hidden steps) made) f'
      fun _ => Filling.Alike hidden
  | [], _, _, _, hf => .pure hf
  | .opening ⟨tag, label, plan⟩ :: steps, made, f, f', hf => by
    rw [stepsWithout, runSteps, runSteps]
    have hplan := Plan.build_along hmode hshown label plan hf.draft
    refine .bind (Fill.build_along (hplan.mono fun x d₁ d₁' h₁ => ?_))
    have hf₁ : Filling.Alike hidden ⟨d₁, f.children⟩ ⟨d₁', f'.children⟩ := ⟨h₁, hf.children_eq⟩
    cases x with
    | none => exact runSteps_along hmode hshown steps _ hf₁
    | some i =>
      exact .bind ((Fill.appendFrom_along hmode hf₁).mono fun _ _ _ h₂ =>
        runSteps_along hmode hshown steps _ h₂)
  | .together parts :: steps, made, f, f', hf => by
    rw [stepsWithout, runSteps, runSteps]
    have hparts := buildParts_along hmode hshown parts hf.draft
    refine .bind (Fill.build_along (hparts.mono fun new d₁ d₁' h₁ => ?_))
    have hf₁ : Filling.Alike hidden ⟨d₁, f.children⟩ ⟨d₁', f'.children⟩ := ⟨h₁, hf.children_eq⟩
    exact .bind ((Fill.appendAll_along hmode _ hf₁).mono fun _ _ _ h₂ =>
      runSteps_along hmode hshown steps _ h₂)

end

end LosslessGo
