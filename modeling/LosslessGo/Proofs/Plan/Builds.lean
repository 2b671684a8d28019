import LosslessGo.Proofs.Draft.Makes
import LosslessGo.Proofs.Plan.Keeps

/-!
# What carrying out a plan numbers

* `Draft.MadeFunction`: how the node of a function came about, and the numbers its flow graph is in.
* `Plan.build_builds`: a regular plan makes its function nodes so, and nodes and numbers as
  `Draft.Makes` tells.
-/

namespace LosslessGo

open Go (Key)
open LosslessGo.Flow (IdScope)

variable {set : Setting} {d d' d'' d₁ d₂ : Draft} {xs ys : List NodeId}
  {functions : List (Key × Go.Block)}

/-- The function node `f` was made over nodes that got numbers in a scope of their own, and its graph
`g` is that of `body` in these numbers. -/
structure Draft.MadeFunction (d : Draft) (f : NodeId) (g : Flow.Graph) (key : Key) (body : Go.Block)
    (inside : List Event) (own : List (NodeId × Key)) : Prop where
  graph_eq : g = .ofBlocks (Flow.blocksOf body) (IdScope.empty.assignAll own)
  history : ∃ before after,
    d.history = after ++ .numbered f key :: .left :: (inside ++ .entered :: before)
  made : ∃ d₀ d₁ : Draft, d₀.scopes.current = .empty ∧ d₀.Makes (d.tree.children f) d₁ inside own ∧
    d₁.tree.size = f ∧ d₁.Grows d

/-- The function nodes that `d'` has and `d` has not are of the functions given, made over nodes with
numbers of their own. -/
def Draft.MakesFunctions (functions : List (Key × Go.Block)) (d d' : Draft) : Prop :=
  ∀ f, d.Adds d' f → (d'.tree.node f).type = .functionDeclaration →
    ∀ g, (d'.tree.node f).fields.flowGraph = some g → ∃ key body inside own,
      (key, body) ∈ functions ∧ d'.MadeFunction f g key body inside own

/-- A step adds nodes with results `xs`, and those of functions are of the functions given. -/
structure Draft.Builds (functions : List (Key × Go.Block)) (d : Draft) (xs : List NodeId)
    (d' : Draft) : Prop where
  makes : ∃ events own, d.Makes xs d' events own
  made : d.MakesFunctions functions d'

namespace Draft

theorem MadeFunction.grows {f : NodeId} {g : Flow.Graph} {key : Key} {body : Go.Block}
    {inside : List Event} {own : List (NodeId × Key)}
    (h : d.MadeFunction f g key body inside own) (hg : d.Grows d')
    (hhistory : d.history <:+ d'.history) (hf : f < d.tree.size) :
    d'.MadeFunction f g key body inside own := by
  obtain ⟨before, after, hbefore⟩ := h.history
  obtain ⟨d₀, d₁, hscope, hmakes, hsize, hg₁⟩ := h.made
  obtain ⟨events, hevents⟩ := hhistory
  refine ⟨h.graph_eq, ⟨before, events ++ after, ?_⟩,
    d₀, d₁, hscope, ?_, hsize, hg₁.trans hg⟩
  · rw [← hevents, hbefore, List.append_assoc]
  · rw [hg.tree.children_eq hf]
    exact hmakes

theorem MakesFunctions.grows (h : d.MakesFunctions functions d') (hg : d'.Grows d'')
    (hhistory : d'.history <:+ d''.history) {f : NodeId} (hf : d.Adds d' f)
    (htype : (d''.tree.node f).type = .functionDeclaration) {g : Flow.Graph}
    (hgraph : (d''.tree.node f).fields.flowGraph = some g) :
    ∃ key body inside own, (key, body) ∈ functions ∧
      d''.MadeFunction f g key body inside own := by
  rw [hg.tree.node_eq f hf.2] at htype hgraph
  obtain ⟨key, body, inside, own, hmem, hmade⟩ := h f hf htype g hgraph
  exact ⟨key, body, inside, own, hmem, hmade.grows hg hhistory hf.2⟩

namespace Builds

theorem refl (d : Draft) : d.Builds functions [] d :=
  ⟨⟨[], [], .refl d⟩, fun _ hf => absurd (hf.1.trans_lt hf.2) (Nat.lt_irrefl _)⟩

theorem leaf (d : Draft) {n : Node} (hn : n.Plain) : d.Builds functions [d.tree.size] (d.add n) := by
  refine ⟨⟨[], [], .leaf d hn⟩, fun f hf htype => ?_⟩
  have hlt : f < (d.tree.push n).size := hf.2
  have hle := hf.1
  rw [Tree.size_push] at hlt
  obtain rfl : f = d.tree.size := by omega
  rw [show (d.add n).tree.node d.tree.size = n from Tree.node_push_size] at htype
  exact absurd htype hn.not_function

theorem trans (h : d.Builds functions xs d') (h' : d'.Builds functions ys d'') :
    d.Builds functions (xs ++ ys) d'' := by
  obtain ⟨events, own, hmakes⟩ := h.makes
  obtain ⟨events', own', hmakes'⟩ := h'.makes
  refine ⟨⟨_, _, hmakes.trans hmakes'⟩, fun f hf htype g hgraph => ?_⟩
  rcases hf.split d' with hf₁ | hf₁
  · exact h.made.grows hmakes'.grows ⟨_, hmakes'.history_eq.symm⟩ hf₁ htype hgraph
  · exact h'.made f hf₁ htype g hgraph

theorem takes {f f' : Filling} (h : d.Builds functions (f.children.toList ++ (xs ++ ys)) f.draft)
    (ht : f.Takes xs f') : d.Builds functions (f'.children.toList ++ ys) f'.draft := by
  obtain ⟨events, own, hmakes⟩ := h.makes
  refine ⟨⟨events, own, hmakes.takes ht⟩, fun i hi htype g hgraph => ?_⟩
  rcases hi.split f.draft with hi₁ | hi₁
  · exact h.made.grows ht.grows ⟨[], ht.history_eq.symm⟩ hi₁ htype hgraph
  · exact absurd htype (ht.plain i hi₁.1 hi₁.2).not_function

variable {origin : Option Key} {type : NodeType} {fields : Fields} {x : Option NodeId}

theorem node (h : d.Builds functions xs d₁) (hmade : NodeMade set d₁ origin type fields xs x d₂)
    (htype : type ≠ .functionDeclaration) (hflow : fields.get? Node.flowIdName = none) :
    d.Builds functions x.toList d₂ := by
  obtain ⟨events, own, hmakes⟩ := h.makes
  refine ⟨hmakes.node hmade htype hflow, fun f hf htype' g hgraph => ?_⟩
  rcases hmade.tops hflow with ⟨-, -, rfl⟩ | ⟨-, n, ht⟩
  · exact h.made f hf htype' g hgraph
  rcases ht.split hf with hf₁ | rfl
  · exact h.made.grows ht.grows ⟨_, ht.history_eq.symm⟩ hf₁ htype' hgraph
  · rw [ht.node_eq, ht.type_eq] at htype'
    exact absurd htype' htype

theorem function {key : Key} (h : d.enter.Builds functions xs d₁)
    (hmade : NodeMade set d₁.leave (some key) .functionDeclaration fields xs x d₂)
    (hflow : fields.get? Node.flowIdName = none)
    (hgraph : ∀ scope, d₁.scopes.leave.1 = some scope → ∀ g, fields.flowGraph = some g →
      ∃ body, (key, body) ∈ functions ∧ g = .ofBlocks (Flow.blocksOf body) scope) :
    d.Builds functions x.toList d₂ := by
  obtain ⟨events, own, hmakes⟩ := h.makes
  obtain ⟨events', hmakes'⟩ := hmakes.function hmade hflow
  have hleft : d₁.Grows d₁.leave := ⟨.refl _, rfl⟩
  refine ⟨⟨_, _, hmakes'⟩, fun f hf htype g hg => ?_⟩
  rcases hmade.tops hflow with ⟨-, -, rfl⟩ | ⟨-, n, ht⟩
  · exact h.made.grows hleft ⟨[.left], rfl⟩ hf htype hg
  rcases ht.split hf with hf₁ | rfl
  · refine h.made.grows (hleft.trans ht.grows) ?_ hf₁ htype hg
    exact ⟨[.numbered d₁.leave.tree.size key, .left], ht.history_eq.symm⟩
  · rw [ht.node_eq, ht.flowGraph_eq] at hg
    have hscope : d₁.scopes.leave.1 = some (IdScope.empty.assignAll own) := by
      rw [hmakes.scopes_eq]
      exact congrArg Prod.fst d.scopes.leave_assignAll_enter
    obtain ⟨body, hmem, hg⟩ := hgraph _ hscope g hg
    refine ⟨key, body, events, own, hmem, hg, ⟨d.history, [], ?_⟩,
      d.enter, d₁, rfl, ?_, rfl, hleft.trans ht.grows⟩
    · rw [ht.history_eq]
      show _ :: Event.left :: d₁.history = _
      rw [hmakes.history_eq]
      rfl
    · rw [Tree.children, ht.node_eq, ht.children_eq]
      exact hmakes

end Builds

end Draft

/-! ## Nodes of plans -/

variable {o : Outcome} {h : Head} {label : String}

theorem Head.Unnumbered.get? (hh : h.Unnumbered) :
    (fieldValues d o h.fields).get? Node.flowIdName = none := by
  apply Fields.get?_ofList_eq_none
  intro e he
  obtain ⟨e', he', rfl⟩ := List.mem_map.mp he
  exact hh e' he'

theorem LeafForm.Regular.get? {type : NodeType} {fields : Fields}
    (h : (LeafForm.typed type fields).Regular) : fields.get? Node.flowIdName = none := by
  obtain ⟨-, entries, rfl, hentries⟩ := h
  exact Fields.get?_ofList_eq_none fun e he => ne_flowIdName (hentries e he).1

/-- A field holds a graph only where the plan says so. -/
theorem fieldValue_graph {p : FieldPlan} {g : Flow.Graph} (hp : ∀ g, p ≠ .given (.graph g))
    (hg : fieldValue d o p = .graph (some g)) : o.graph = some g := by
  cases p with
  | given v =>
    obtain rfl : v = .graph (some g) := hg
    exact absurd rfl (hp _)
  | graph => exact FieldValue.graph.inj hg
  | naming n =>
    simp only [fieldValue, nativeKindValue] at hg
    split at hg <;> cases hg
  | keywordBefore tag =>
    simp only [fieldValue] at hg
    split at hg <;> cases hg
  | _ => cases hg

theorem Head.IsFunction.graph_eq {blocks : Option (List Flow.Block)} {g : Flow.Graph}
    (hh : h.IsFunction functions blocks) (hg : (fieldValues d o h.fields).flowGraph = some g) :
    o.graph = some g := by
  unfold Fields.flowGraph at hg
  split at hg
  · rename_i g' hget
    subst hg
    obtain ⟨e, he, heq⟩ := List.mem_map.mp (Fields.mem_of_get?_ofList hget)
    exact fieldValue_graph (fun g => hh.fields e he g) (Prod.mk.inj heq).2
  · cases hg

namespace Build

open Draft (Builds)

theorem leafMade_builds {offset : Nat} {kind : TokenKind} {type : NodeType} {fields : Fields}
    {x : Option NodeId} (hmade : LeafMade set d offset kind type fields x d')
    (htype : type ≠ .functionDeclaration) (hflow : fields.get? Node.flowIdName = none) :
    d.Builds functions x.toList d' := by
  cases hmade with
  | none => exact .refl d
  | some n stop hn => exact .leaf d (hn.plain htype hflow)

theorem planned_builds {text : String} {pos : Go.Pos} {kind : TokenKind} {form : LeafForm}
    (hform : form.Regular) :
    Yields (planned set label pos text kind form) d fun x d' => d.Builds functions x.toList d' := by
  cases form with
  | token n =>
    exact expectedLeaf_yields.mono fun _ _ hmade =>
      leafMade_builds hmade (by decide) (tokenFields_get? _)
  | typed type fields =>
    exact expectedLeaf_yields.mono fun _ _ hmade =>
      leafMade_builds hmade hform.1 hform.get?

theorem endMark_builds : Yields (endMark set) d fun x d' => d.Builds functions x.toList d' := by
  refine leaf_yields.mono ?_
  rintro x d' (⟨rfl, rfl, -⟩ | ⟨n, hn, rfl, rfl⟩)
  · exact .refl d'
  · exact .leaf d hn.plain_token

theorem head_builds (hx : d.Builds functions xs d₁) (htype : h.type ≠ .functionDeclaration)
    (hh : h.Unnumbered) : Yields (head set o h xs) d₁ fun x d' => d.Builds functions x.toList d' :=
  .bind (.get (node_yields.mono fun _ _ hmade => hx.node hmade htype hh.get?))

theorem leaveScope_yields {blocks : Option (List Flow.Block)} :
    Yields (leaveScope (.own blocks)) d fun graph d' => d' = d.leave ∧
      graph = d.scopes.leave.1.bind fun ids => blocks.map fun bs => .ofBlocks bs ids := by
  refine .bind ?_
  rintro _ _ ⟨⟩
  exact .pure ⟨rfl, rfl⟩

/-- The node of a function is made. -/
theorem head_function {blocks : Option (List Flow.Block)} (hx : d.enter.Builds functions xs d₁)
    (hh : h.IsFunction functions blocks) (hnum : h.Unnumbered)
    (hgraph : o.graph = d₁.scopes.leave.1.bind fun ids => blocks.map fun bs => .ofBlocks bs ids) :
    Yields (head set o h xs) d₁.leave fun x d' => d.Builds functions x.toList d' := by
  obtain ⟨key, horigin, hblocks⟩ := hh.origin
  refine .bind (.get (node_yields.mono fun x d' hmade => ?_))
  rw [horigin, hh.type_eq] at hmade
  refine hx.function hmade hnum.get? fun scope hscope g hg => ?_
  have hog := hh.graph_eq hg
  rw [hgraph, hscope, Option.bind_some] at hog
  obtain ⟨bs, hbs, rfl⟩ := Option.map_eq_some_iff.mp hog
  obtain ⟨body, hbody, rfl⟩ := hblocks bs hbs
  exact ⟨body, hbody, rfl⟩

/-- Only children without numbers are left out for the only block. -/
theorem clauseBlock_builds (hx : d.Builds functions xs d₁) :
    Yields (clauseBlock set xs) d₁ fun x d' => d.Builds functions x.toList d' := by
  refine .bind (.get ?_)
  simp only
  split
  · rename_i i hi
    obtain ⟨events, own, hmakes⟩ := hx.makes
    have hvisible : d₁.tree.visible xs = [i] := by
      unfold soleBlock? at hi
      split at hi
      · split at hi
        · cases hi
          assumption
        · cases hi
      · cases hi
    refine .pure ⟨⟨events, own, hmakes.of_grafts ⟨hmakes.grows, hmakes.encloses, ?_, hmakes.hidden,
      fun j hj hn => ?_⟩⟩, hx.made⟩
    · intro j hj
      obtain rfl := List.mem_singleton.mp hj
      exact hmakes.results j (soleBlock?_mem hi)
    · obtain ⟨r, hr, hadds, hbelow⟩ := hmakes.rooted j hj hn
      refine ⟨r, ?_, hadds, hbelow⟩
      show r ∈ [i]
      rw [← hvisible]
      refine List.mem_filter.mpr ⟨hr, ?_⟩
      by_contra hhidden
      have hplain := hmakes.hidden r hadds (Bool.eq_false_iff.mpr hhidden)
      rcases hbelow.cases_child with rfl | ⟨c, hc, -⟩
      · exact hn hplain.flowId_eq
      · rw [Tree.children, hplain.children_eq] at hc
        cases hc
  · refine node_yields.mono fun _ _ hmade => hx.node hmade (by decide) ?_
    apply Fields.get?_ofList_eq_none
    simp [Node.flowIdName]

end Build

/-! ## Plans -/

mutual

/-- A regular plan makes nodes, and numbers them. -/
theorem Plan.build_builds (label : String) : (p : Plan) → p.Regular functions → ∀ {d : Draft},
    Yields (p.build set label) d fun x d' => d.Builds functions x.toList d'
  | .absent, _, d => .pure (.refl d)
  | .leaf .., hp, _ => Build.planned_builds hp.2
  | .node .shared head cover steps, ⟨⟨hhead, hcover, htype, hctype⟩, hsteps⟩, d => by
    rw [Plan.build]
    refine .bind (.pure (.bind (Fill.gather_yields ((runSteps_builds steps [] hsteps).mono ?_))))
    rintro made ⟨d₁, cs⟩ hx
    have hx₁ : d.Builds functions cs.toList d₁ := hx d (.refl d)
    refine .bind (.pure (.bind ((Build.head_builds hx₁ htype hhead.unnumbered).mono ?_)))
    rintro core d₂ hx₂
    cases cover with
    | none => exact .pure hx₂
    | some outer =>
      exact Build.head_builds hx₂ (hctype outer rfl) (hcover outer rfl).unnumbered
  | .node (.own blocks) head cover steps, ⟨⟨hhead, _, hcover, hfun⟩, hsteps⟩, d => by
    rw [Plan.build]
    refine .bind ?_
    rintro _ _ ⟨⟩
    refine .bind (Fill.gather_yields ((runSteps_builds steps [] hsteps).mono ?_))
    rintro made ⟨d₁, cs⟩ hx
    have hx₁ : d.enter.Builds functions cs.toList d₁ := hx d.enter (.refl _)
    refine .bind (Build.leaveScope_yields.mono ?_)
    rintro graph _ ⟨rfl, hgraph⟩
    refine .bind ((Build.head_function hx₁ hfun hhead.unnumbered hgraph).mono ?_)
    rintro core d₂ hx₂
    rw [hcover]
    exact .pure hx₂
  | .clauseBody steps, hp, d => by
    rw [Plan.build]
    refine .bind (Fill.gather_yields ((runSteps_builds steps [] hp.2).mono ?_))
    rintro made ⟨d₁, cs⟩ hx
    exact Build.clauseBlock_builds (hx d (.refl d))
  | .firstOf first second, hp, d => by
    rw [Plan.build]
    refine .bind ((Plan.build_builds label first hp.1).mono ?_)
    rintro x d₁ hx
    cases x with
    | some i => exact .pure hx
    | none => exact (Plan.build_builds label second hp.2).mono fun _ _ => hx.trans

/-- Regular parts make nodes, and number them. -/
theorem buildParts_builds : (ps : List Part) → RegularParts functions ps → ∀ {d : Draft},
    Yields (buildParts set ps) d fun made d' => d.Builds functions (made.map (·.2)).reduceOption d'
  | [], _, d => .pure (.refl d)
  | ⟨tag, label, plan⟩ :: parts, hp, d => by
    have hpart : Yields (plan.build set label) d fun x d' => d.Builds functions x.toList d' := by
      rcases hp.1 with hplan | ⟨-, rfl⟩
      · exact Plan.build_builds label plan hplan
      · exact Build.endMark_builds
    rw [buildParts]
    refine .bind (hpart.mono ?_)
    rintro x d₁ hx
    refine .bind ((buildParts_builds parts hp.2).mono ?_)
    rintro made d₂ hmade
    have happend : (((tag, x) :: made).map (·.2)).reduceOption =
        x.toList ++ (made.map (·.2)).reduceOption := by
      cases x <;> rfl
    refine .pure ?_
    rw [happend]
    exact hx.trans hmade

/-- Regular steps gather all nodes that they make. -/
theorem runSteps_builds {first : Bool} : (steps : List Step) → (made : Made) →
    RegularSteps functions first steps → ∀ {f : Filling}, Yields (runSteps set steps made) f fun _ f' =>
      ∀ d : Draft, d.Builds functions f.children.toList f.draft →
        d.Builds functions f'.children.toList f'.draft
  | [], _, _, f => .pure fun _ hd => hd
  | .opening ⟨tag, label, plan⟩ :: steps, made, hp, f => by
    obtain ⟨-, hplan, hsteps⟩ := regularSteps_opening.mp hp
    rw [runSteps]
    refine .bind ((Fill.build_yields (Plan.build_builds label plan hplan)).mono ?_)
    rintro x ⟨d₁, cs⟩ ⟨rfl, hx⟩
    cases x with
    | none =>
      refine (runSteps_builds steps _ hsteps).mono fun _ _ hrest d hd => hrest d ?_
      simpa using hd.trans hx
    | some i =>
      refine .bind (Fill.appendFrom_takes.mono ?_)
      rintro - f₂ ht
      refine (runSteps_builds steps _ hsteps).mono fun _ _ hrest d hd => hrest d ?_
      have h₁ : d.Builds functions (f.children.toList ++ ([i] ++ [])) d₁ := hd.trans hx
      have h₂ := h₁.takes ht
      rwa [List.append_nil] at h₂
  | .together parts :: steps, made, hp, f => by
    rw [runSteps]
    refine .bind ((Fill.build_yields (buildParts_builds parts hp.1)).mono ?_)
    rintro new ⟨d₁, cs⟩ ⟨rfl, hx⟩
    refine .bind (Fill.appendAll_takes.mono ?_)
    rintro - f₂ ht
    refine (runSteps_builds steps _ hp.2).mono fun _ _ hrest d hd => hrest d ?_
    have h₁ := hd.trans hx
    rw [← List.append_nil (List.reduceOption _)] at h₁
    have h₂ := h₁.takes ht
    rwa [List.append_nil] at h₂

end

end LosslessGo
