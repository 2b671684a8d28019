import LosslessGo.Proofs.Convert.Ownership
import LosslessGo.Proofs.Plan.Parameters

/-!
# Functions and their parameters

A function or function literal has a field for its parameters. In strict mode the field lists one
parameter for each name that is declared, in order, where the source shows a comma between names and no
name `_` stands at a carriage return. The latter is needed: there the leaf of a name may take a comma
along, and then names are passed over.

* `Draft.Ready`: what a file's comments are like before and after any plan.
* `Plan.build_parameters`: the parameters of a function.
* `convertFile_passedOver`: a file in strict mode with a parameter that its function does not list.
-/

namespace LosslessGo

open Go (Key Ident Expr Field FieldList FuncType Block)

variable {set : Setting} {facts : Facts} {d d' : Draft} {x : Option NodeId} {i : NodeId} {k : Nat}

/-! ## Drafts of a file -/

/-- The first `k` nodes are the comments, in order, and others have been made behind them. -/
structure Draft.Ready (k : Nat) (d : Draft) : Prop where
  based : d.Based k
  tracked : d.Tracked 0
  ordered : d.CommentsOrdered

/-- The comments of a file are made before anything else. -/
theorem Build.comments_ready (cs : List Go.Comment) : Yields (comments set cs) .empty fun _ d =>
    d.CommentsOrdered → d.Ready d.tree.size := by
  have hempty : Draft.empty.Commented set := ⟨fun i hi => absurd hi (Nat.not_lt_zero i), rfl, rfl⟩
  exact ((comments_commented hempty).and (comments_tracked cs .empty).yields).mono
    fun _ _ h hordered => ⟨h.1.based, h.2, hordered⟩

/-- A plan leaves the draft ready for the next one. -/
theorem Draft.Ready.build {p : Plan} {label : String} {functions : List (Key × Block)}
    (h : d.Ready k) (hp : p.Regular functions) :
    Yields (p.build set label) d fun _ d' => d'.Ready k := by
  have hd := h.tracked.hasComments
  refine ((p.build_owns label hp h.based).and (p.build_extends label hd)).mono ?_
  rintro x d' ⟨howns, hextends⟩
  exact ⟨howns.owns.based, hextends.tracked h.tracked,
    hextends.toExtends.commentsOrdered hd h.ordered⟩

/-! ## Functions -/

/-- The plan of a function or function literal with a list of parameters. -/
inductive Plan.IsFunction (facts : Facts) : FieldList → Plan → Prop where
  | declared (recv : Option FieldList) (name : Ident) (type : FuncType) (body : Option Block) :
    IsFunction facts type.params (ofFunc facts recv name type body)
  | literal (type : FuncType) (body : Block) :
    IsFunction facts type.params (ofExpr facts (.funcLit type body))

/-- The node of a function finds its parameters in the list that is made as one of its parts. -/
structure Head.FindsParameters (facts : Facts) (l : FieldList) (head : Head) (steps : List Step) :
    Prop where
  type_eq : head.type = .functionDeclaration
  names_nodup : (head.fields.map (·.1)).Nodup
  field_mem : ("formalParameters", .parameters "Params") ∈ head.fields
  together : ∀ s ∈ steps, s.IsTogether
  tags_nodup : ((partsOfSteps steps).map (·.tag)).Nodup
  part_mem : ⟨"Params", "Params", Plan.ofFieldList facts .params l⟩ ∈ partsOfSteps steps

namespace Plan.IsFunction

variable {l : FieldList} {p : Plan} {label : String}

theorem regular (hp : IsFunction facts l p) : ∃ functions, p.Regular functions := by
  cases hp with
  | declared recv name type body =>
    exact ⟨_, ofFunc_holds (T := .regular _) (List.Subset.refl _)⟩
  | literal type body => exact ⟨_, ofExpr_regular _⟩

/-- In strict mode the node of a function is made. -/
theorem build_node (hp : IsFunction facts l p) (hstrict : set.strict = true)
    (h : p.build set label d = .ok x d') : ∃ i scope head steps, x = some i ∧
      head.FindsParameters facts l steps ∧
      (Plan.node scope head none steps).build set label d = .ok (some i) d' := by
  cases hp with
  | declared recv name type body =>
    obtain ⟨i, rfl⟩ := Option.isSome_iff_exists.mp ((IsSure.node ..).isSome hstrict x d' h)
    exact ⟨i, _, _, _, rfl, ⟨rfl, by simp, by simp, by simp, by simp, by simp⟩, h⟩
  | literal type body =>
    obtain ⟨func, typeParams, params, results⟩ := type
    rw [ofExpr, funcLit] at h
    have h := (IsSure.node ..).of_build_firstOf hstrict x d' h
    obtain ⟨i, rfl⟩ := Option.isSome_iff_exists.mp ((IsSure.node ..).isSome hstrict x d' h)
    exact ⟨i, _, _, _, rfl, ⟨rfl, by simp, by simp, by simp, by simp, by simp⟩, h⟩

end Plan.IsFunction

/-- In strict mode a function or function literal has a node, and a parameter for each name that its
list declares, where the source shows both parentheses and one comma between names of a group, and no
name `_` stands at a carriage return. The parameters are in order, of the list as of the source, each
with its own name, and the last one of a group with the type. -/
theorem Plan.build_parameters {l : FieldList} {p : Plan} {label : String}
    (hp : IsFunction facts l p) (hstrict : set.strict = true) (hd : d.Ready k)
    (hopening : l.opening.isSome = true) (hclosing : l.closing.isSome = true)
    (hl : ∀ field ∈ l.fields, d.ShowsNames set.source field.names)
    (h : p.build set label d = .ok x d') :
    ∃ i ps, x = some i ∧ (d'.tree.node i).type = .functionDeclaration ∧
      (d'.tree.node i).field? "formalParameters" = some (.nodes ps) ∧ ps.Nodup ∧
      ps.IsChain d'.tree.Before ∧
      List.Forall₂ (d.IsParameter set facts d') (declaredParameters l) ps := by
  have hcomments := hd.tracked.hasComments
  obtain ⟨_, hregular⟩ := hp.regular
  obtain ⟨howns, hvisible⟩ := p.build_owns label hregular hd.based x d' h
  obtain ⟨i, scope, head, steps, rfl, hfinds, hnode⟩ := hp.build_node hstrict h
  obtain ⟨made, d₁, hplanned⟩ := planned_of_build hnode hfinds.together hcomments
  have hlist := hplanned.parts.part_built hcomments hfinds.tags_nodup hfinds.part_mem
  obtain ⟨list, hpart, hordered, hparameters⟩ :=
    fieldList_built hstrict hd.tracked hd.ordered hopening hclosing hl hlist
  obtain ⟨label', graph, hfield⟩ :=
    hplanned.field?_eq hfinds.names_nodup hfinds.field_mem (by decide)
  have hvalue : (d'.tree.node i).field? "formalParameters" = some (.nodes (parametersOf d₁ list)) := by
    rw [hfield, fieldValue, hpart]
    rfl
  refine ⟨i, _, rfl, hplanned.type_eq.trans hfinds.type_eq, hvalue, ?_, ?_, ?_⟩
  · have hnodup := howns.nodup_refs (howns.based.le_of_visible (hvisible i rfl))
    exact (List.nodup_flatMap.mp hnodup).1 _ (Fields.mem_of_get? hvalue)
  · refine hordered.imp_of_mem_imp fun q r hq hr hle => ?_
    obtain ⟨_, -, hq⟩ := exists_of_forall₂_mem hparameters hq
    obtain ⟨_, -, hr⟩ := exists_of_forall₂_mem hparameters hr
    rwa [Tree.Before, hplanned.extends_final.node_eq hq.lt_size,
      hplanned.extends_final.node_eq hr.lt_size]
  · exact hparameters.imp fun e p hp => hp.later hplanned.extends_final

/-- Two groups of parameters, with a comment between the names of the first. -/
def gappedParameters : FieldList :=
  ⟨some 16, [⟨[⟨17, "a", none⟩, ⟨29, "b", none⟩], .ident ⟨31, "int", none⟩, none⟩,
    ⟨[⟨36, "c", none⟩], .ident ⟨38, "string", none⟩, none⟩], some 44⟩

/-- The plan of a function with these parameters. -/
def gappedFunction : Plan :=
  .ofFunc .none none ⟨15, "f", none⟩ ⟨some 10, none, gappedParameters, none⟩ (some ⟨46, [], 47⟩)

/-- The source of `gappedFunction`, in strict mode. -/
def gappedSetting : Setting :=
  ⟨.ofText "m.go" "package p\nfunc f(a /* , */ , b int, c string) \x7b\x7d\n", true⟩

theorem Plan.build_parameters_gappedFunction :
    ∃ d x d', Build.comments gappedSetting [⟨19, "/* , */"⟩] .empty = .ok () d ∧ d.comments = #[0] ∧
      IsFunction .none gappedParameters gappedFunction ∧ gappedSetting.strict = true ∧ d.Ready 1 ∧
      gappedParameters.opening.isSome = true ∧ gappedParameters.closing.isSome = true ∧
      (∀ field ∈ gappedParameters.fields, d.ShowsNames gappedSetting.source field.names) ∧
      gappedFunction.build gappedSetting "" d = .ok x d' ∧
      ∃ i ps, x = some i ∧ (d'.tree.node i).type = .functionDeclaration ∧
        (d'.tree.node i).field? "formalParameters" = some (.nodes ps) ∧ ps.Nodup ∧
        ps.IsChain d'.tree.Before ∧
        List.Forall₂ (d.IsParameter gappedSetting .none d') (declaredParameters gappedParameters) ps := by
  have hcomments : attains (Build.comments gappedSetting [⟨19, "/* , */"⟩]) .empty (fun _ d =>
      d.comments = #[0] ∧ d.tree.size = 1 ∧ d.CommentsOrdered ∧
        (∀ field ∈ gappedParameters.fields, d.ShowsNames gappedSetting.source field.names) ∧
        attains (gappedFunction.build gappedSetting "") d fun _ _ => true) = true := by
    decide +kernel
  obtain ⟨⟨⟩, d, hd, hrun⟩ := exists_of_attains hcomments
  obtain ⟨hcomment, hsize, hordered, hnames, hbuild⟩ := of_decide_eq_true hrun
  obtain ⟨x, d', hbuild, -⟩ := exists_of_attains hbuild
  have hready : d.Ready 1 := hsize ▸ Build.comments_ready _ _ _ hd hordered
  have hfunction : IsFunction .none gappedParameters gappedFunction :=
    .declared none _ ⟨some 10, none, gappedParameters, none⟩ _
  exact ⟨d, x, d', hd, hcomment, hfunction, rfl, hready, rfl, rfl, hnames, hbuild,
    Plan.build_parameters hfunction rfl hready rfl rfl hnames hbuild⟩

/-- A file that declares a name `_` where its source shows a carriage return. -/
def passedOverFile : Go.File :=
  ⟨0, ⟨8, "p", none⟩,
    [.func none ⟨15, "f", none⟩
      ⟨some 10, none,
        ⟨some 16, [⟨[⟨17, "_", none⟩, ⟨19, "b", none⟩], .ident ⟨21, "int", none⟩, none⟩], some 24⟩, none⟩
      (some ⟨26, [], 27⟩)], []⟩

/-- The source of `passedOverFile`. -/
def passedOverSource : SourceFile := .ofText "m.go" "package p\nfunc f(\r,b int) \x7b\x7d\n"

/-- In strict mode a function may not list a parameter that it has, although the source shows one comma
between the names: the leaf of a name `_` takes the comma behind a carriage return along, so that the
parameter after it is the second child of its group. -/
theorem convertFile_passedOver :
    Text.slice passedOverSource.text 18 19 = "," ∧
    ∃ r root i p q, convertFile passedOverFile passedOverSource .empty ⟨true, false⟩ = .ok r ∧
      r.root = some root ∧ r.tree.Below root i ∧ (r.tree.node i).type = .functionDeclaration ∧
      (r.tree.node i).field? "formalParameters" = some (.nodes [p]) ∧ r.tree.Below i q ∧ p ≠ q ∧
      (r.tree.node p).type = .parameter ∧ (r.tree.node q).type = .parameter := by
  have hrun : (convertFile passedOverFile passedOverSource .empty ⟨true, false⟩).toOption.any (fun r =>
      r.root = some 21 ∧ r.tree.children 21 = [2, 19, 20] ∧ r.tree.children 19 = [18] ∧
        r.tree.children 18 = [3, 4, 14, 17] ∧ r.tree.children 14 = [5, 12, 13] ∧
        r.tree.children 12 = [8, 11] ∧ (r.tree.node 18).type = .functionDeclaration ∧
        (r.tree.node 18).field? "formalParameters" = some (.nodes [8]) ∧
        (r.tree.node 8).type = .parameter ∧ (r.tree.node 11).type = .parameter) = true := by
    decide +kernel
  refine ⟨by decide +kernel, ?_⟩
  cases h : convertFile passedOverFile passedOverSource .empty ⟨true, false⟩ with
  | error e =>
    rw [h] at hrun
    cases hrun
  | ok r =>
    rw [h] at hrun
    simp only [Except.toOption, Option.any_some, decide_eq_true_eq] at hrun
    obtain ⟨hroot, h₂₁, h₁₉, h₁₈, h₁₄, h₁₂, hfunction, hfield, hp, hq⟩ := hrun
    have hbelow : r.tree.Below 21 18 :=
      ((Tree.Below.refl r.tree 21).child (by simp [h₂₁] : 19 ∈ r.tree.children 21)).child
        (by simp [h₁₉])
    have hparameter : r.tree.Below 18 11 :=
      (((Tree.Below.refl r.tree 18).child (by simp [h₁₈] : 14 ∈ r.tree.children 18)).child
        (by simp [h₁₄] : 12 ∈ r.tree.children 14)).child (by simp [h₁₂])
    exact ⟨r, 21, 18, 8, 11, rfl, hroot, hbelow, hfunction, hfield, hparameter, by decide, hp, hq⟩

end LosslessGo
