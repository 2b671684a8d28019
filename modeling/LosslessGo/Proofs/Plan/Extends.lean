import LosslessGo.Proofs.Draft.Tracked
import LosslessGo.Proofs.Draft.Takes
import LosslessGo.Proofs.Plan.Keeps

/-!
# What carrying out any plan keeps

Whatever the plan, nodes that were made before stay as they are, the cursor stays among the comments,
and results are nodes of the tree (`Plan.build_extends`).

* `Draft.Extends`: one draft comes from another by such steps.
* `runSteps_extends`: so do the steps of a node, and the children gathered are nodes of the tree.
-/

namespace LosslessGo

open Go (Key)

variable {set : Setting} {d d' d'' d₁ : Draft} {f f' : Filling} {x : Option NodeId}

/-- Nodes and comments stay as they are, and the cursor stays among the comments. -/
structure Draft.Extends (d d' : Draft) : Prop where
  grows : d.Grows d'
  tracked : d.Tracked 0 → d'.Tracked 0

/-- The comments are nodes of the tree. -/
def Draft.HasComments (d : Draft) : Prop := ∀ c ∈ d.comments.toList, c < d.tree.size

/-- The children are nodes of the tree. -/
def Filling.HasChildren (f : Filling) : Prop := ∀ c ∈ f.children.toList, c < f.draft.tree.size

namespace Draft

theorem HasComments.grows (h : d.HasComments) (hg : d.Grows d') : d'.HasComments := by
  intro c hc
  rw [hg.comments_eq] at hc
  exact (h c hc).trans_le hg.tree.size_le

namespace Extends

theorem refl (d : Draft) : d.Extends d := ⟨.refl d, id⟩

theorem trans (h : d.Extends d') (h' : d'.Extends d'') : d.Extends d'' :=
  ⟨h.grows.trans h'.grows, h'.tracked ∘ h.tracked⟩

theorem hasComments (h : d.Extends d') (hd : d.HasComments) : d'.HasComments := hd.grows h.grows

theorem size_le (h : d.Extends d') : d.tree.size ≤ d'.tree.size := h.grows.tree.size_le

theorem node_eq (h : d.Extends d') {i : NodeId} (hi : i < d.tree.size) :
    d'.tree.node i = d.tree.node i := h.grows.tree.node_eq i hi

theorem add (d : Draft) (n : Node) : d.Extends (d.add n) := ⟨.add d n, fun h => h.add n⟩

/-- The scopes and what is known of them have no part in it. -/
theorem of_eq (htree : d'.tree = d.tree) (hcomments : d'.comments = d.comments)
    (hcursor : d'.cursor = d.cursor) : d.Extends d' :=
  ⟨⟨htree ▸ .refl _, hcomments⟩, fun h => h.of_eq htree hcomments hcursor⟩

theorem number (d : Draft) (n : Node) (origin : Option Key) :
    d.Extends ((d.add n).number d.tree.size origin) := by
  obtain ⟨fields, htree⟩ := d.number_tree n origin
  refine ⟨⟨htree ▸ .push _ _, d.number_comments n origin⟩, fun h => ?_⟩
  cases origin with
  | none => exact h.add n
  | some key => exact (h.add n).stamp _ key

end Extends

/-- A draft extends another, with a result that is a node of its tree. -/
structure ExtendsWith (d : Draft) (x : Option NodeId) (d' : Draft) : Prop extends d.Extends d' where
  lt_size : ∀ i ∈ x, i < d'.tree.size

namespace ExtendsWith

theorem none (h : d.Extends d') : d.ExtendsWith none d' := ⟨h, nofun⟩

/-- The result is the node added last. -/
theorem number (d : Draft) (n : Node) (origin : Option Key) :
    d.ExtendsWith (some d.tree.size) ((d.add n).number d.tree.size origin) := by
  obtain ⟨fields, htree⟩ := d.number_tree n origin
  refine ⟨.number d n origin, ?_⟩
  rintro _ ⟨⟩
  rw [htree, Tree.size_push]
  exact Nat.lt_succ_self _

theorem trans (h : d.Extends d') (h' : d'.ExtendsWith x d'') : d.ExtendsWith x d'' :=
  ⟨h.trans h'.toExtends, h'.lt_size⟩

end ExtendsWith

end Draft

theorem LeafMade.extends {offset : Nat} {kind : TokenKind} {type : NodeType} {fields : Fields}
    (h : LeafMade set d offset kind type fields x d') : d.ExtendsWith x d' := by
  cases h with
  | none => exact .none (.refl d)
  | some n => exact .number d n Option.none

theorem NodeMade.extends {origin : Option Key} {type : NodeType} {fields : Fields}
    {children : List NodeId} (h : NodeMade set d origin type fields children x d') :
    d.ExtendsWith x d' := by
  cases h with
  | none => exact .none (.refl d)
  | leaf n key => exact .number d n (some key)
  | inner => exact .number d _ origin

namespace Build

variable {o : Outcome} {h : Head} {children : List NodeId} {label text : String} {pos : Go.Pos}
  {kind : TokenKind} {form : LeafForm} {scope : Scope}

theorem planned_extends : Yields (planned set label pos text kind form) d d.ExtendsWith := by
  cases form <;> exact expectedLeaf_yields.mono fun _ _ h => h.extends

theorem endMark_extends : Yields (endMark set) d d.ExtendsWith := by
  refine leaf_yields.mono ?_
  rintro x d' (⟨rfl, rfl, -⟩ | ⟨n, -, rfl, rfl⟩)
  · exact .none (.refl d')
  · exact .number d n none

theorem head_extends : Yields (head set o h children) d d.ExtendsWith :=
  .bind (.get (node_yields.mono fun _ _ h => h.extends))

theorem enterScope_extends : Yields (enterScope scope) d fun _ d' => d.Extends d' := by
  cases scope with
  | shared => exact .pure (.refl d)
  | own blocks =>
    rintro _ _ ⟨⟩
    exact .of_eq rfl rfl rfl

theorem leaveScope_extends : Yields (leaveScope scope) d fun _ d' => d.Extends d' := by
  cases scope with
  | shared => exact .pure (.refl d)
  | own blocks =>
    refine .bind ?_
    rintro _ _ ⟨⟩
    exact .pure (.of_eq rfl rfl rfl)

theorem clauseBlock_extends (hlt : ∀ c ∈ children, c < d.tree.size) :
    Yields (clauseBlock set children) d d.ExtendsWith := by
  refine .bind (.get ?_)
  simp only
  split
  · rename_i i hi
    refine .pure ⟨.refl d, ?_⟩
    rintro _ ⟨⟩
    exact hlt i (soleBlock?_mem hi)
  · exact node_yields.mono fun _ _ h => h.extends

end Build

/-! ## Children -/

/-- The draft extends another, and the children are nodes of its tree. -/
structure Filling.Continues (f f' : Filling) : Prop where
  draft : f.draft.Extends f'.draft
  hasChildren : f'.HasChildren

namespace Filling.Continues

theorem refl (h : f.HasChildren) : f.Continues f := ⟨.refl _, h⟩

theorem trans {f'' : Filling} (h : f.Continues f') (h' : f'.Continues f'') : f.Continues f'' :=
  ⟨h.draft.trans h'.draft, h'.hasChildren⟩

/-- Children are gathered that are nodes of the tree. -/
theorem takes {xs : List NodeId} (ht : f.Takes xs f') (htracked : f.draft.Tracked 0 → f'.draft.Tracked 0)
    (hd : f.draft.HasComments) (hf : f.HasChildren) (hxs : ∀ i ∈ xs, i < f.draft.tree.size) :
    f.Continues f' := by
  refine ⟨⟨ht.grows, htracked⟩, fun c hc => ?_⟩
  rcases ht.taken c hc with hc | hc | hc
  · refine Nat.lt_of_lt_of_le ?_ ht.grows.tree.size_le
    exact (List.mem_append.mp hc).elim (hf c) (hxs c)
  · exact (hd c hc).trans_le ht.grows.tree.size_le
  · exact hc.2

end Filling.Continues

theorem Filling.HasChildren.empty (d : Draft) : Filling.HasChildren ⟨d, #[]⟩ := by
  simp [Filling.HasChildren]

theorem Filling.HasChildren.extends (h : f.HasChildren) (hd : f.draft.Extends d') :
    Filling.HasChildren ⟨d', f.children⟩ := fun c hc => (h c hc).trans_le hd.size_le

namespace Fill

theorem append_continues (hd : f.draft.HasComments) (hf : f.HasChildren)
    (hx : ∀ i ∈ x, i < f.draft.tree.size) : Yields (append set x) f fun _ f' => f.Continues f' := by
  intro u f' happend
  refine .takes (append_takes u f' happend) (fun h => (append_tracked h).yields u f' happend) hd hf ?_
  simpa using hx

theorem appendFrom_continues {offset : Nat} {i : NodeId} (hd : f.draft.HasComments)
    (hf : f.HasChildren) (hi : i < f.draft.tree.size) :
    Yields (appendFrom set offset i) f fun _ f' => f.Continues f' := by
  intro u f' happend
  refine .takes (appendFrom_takes u f' happend) (fun h => ?_) hd hf (by simpa using hi)
  have hends : Ends (appendFrom set offset i) f fun f' => f'.draft.Tracked 0 :=
    .get (.seq (gap_tracked h) fun _ _ h₁ => h₁)
  exact hends.yields u f' happend

theorem appendAll_continues (xs : List (Option NodeId)) (hd : f.draft.HasComments)
    (hf : f.HasChildren) (hxs : ∀ x ∈ xs, ∀ i ∈ x, i < f.draft.tree.size) :
    Yields (appendAll set xs) f fun _ f' => f.Continues f' := by
  induction xs generalizing f with
  | nil => exact .pure (.refl hf)
  | cons x xs ih =>
    obtain ⟨hx, hxs⟩ := List.forall_mem_cons.mp hxs
    refine .bind ((append_continues hd hf hx).mono fun _ f₁ h₁ => ?_)
    refine (ih (h₁.draft.hasComments hd) h₁.hasChildren fun x hx i hi => ?_).mono fun _ _ => h₁.trans
    exact (hxs x hx i hi).trans_le h₁.draft.size_le

end Fill

/-! ## Plans -/

mutual

/-- Carrying out a plan extends the draft. -/
theorem Plan.build_extends (label : String) : (p : Plan) → ∀ {d : Draft}, d.HasComments →
    Yields (p.build set label) d d.ExtendsWith
  | .absent, d, _ => .pure (.none (.refl d))
  | .leaf .., _, _ => Build.planned_extends
  | .endMark, _, _ => Build.endMark_extends
  | .node scope head cover steps, d, hd => by
    rw [Plan.build]
    refine .bind (Build.enterScope_extends.mono fun _ d₁ h₁ => ?_)
    refine .bind (Fill.gather_yields ((runSteps_extends steps [] (h₁.hasComments hd) (.empty d₁)).mono ?_))
    intro made f₂ h₂
    refine .bind (Build.leaveScope_extends.mono fun _ d₃ h₃ => ?_)
    refine .bind (Build.head_extends.mono fun core d₄ h₄ => ?_)
    have hcore : d.ExtendsWith core d₄ := .trans (h₁.trans (h₂.draft.trans h₃)) h₄
    cases cover with
    | none => exact .pure hcore
    | some outer => exact Build.head_extends.mono fun _ _ h => .trans hcore.toExtends h
  | .clauseBody steps, d, hd => by
    rw [Plan.build]
    refine .bind (Fill.gather_yields ((runSteps_extends steps [] hd (.empty d)).mono ?_))
    intro made f₁ h₁
    exact (Build.clauseBlock_extends h₁.hasChildren).mono fun _ _ h => .trans h₁.draft h
  | .firstOf first second, d, hd => by
    rw [Plan.build]
    refine .bind ((Plan.build_extends label first hd).mono fun x d₁ h₁ => ?_)
    cases x with
    | some i => exact .pure h₁
    | none =>
      exact (Plan.build_extends label second (h₁.toExtends.hasComments hd)).mono fun _ _ h =>
        .trans h₁.toExtends h

/-- Parts extend the draft one after the other. -/
theorem buildParts_extends : (ps : List Part) → ∀ {d : Draft}, d.HasComments →
    Yields (buildParts set ps) d fun made d' =>
      d.Extends d' ∧ ∀ e ∈ made, ∀ i ∈ e.2, i < d'.tree.size
  | [], d, _ => .pure ⟨.refl d, by simp⟩
  | ⟨tag, label, plan⟩ :: parts, d, hd => by
    rw [buildParts]
    refine .bind ((Plan.build_extends label plan hd).mono fun x d₁ h₁ => ?_)
    refine .bind ((buildParts_extends parts (h₁.toExtends.hasComments hd)).mono ?_)
    rintro made d₂ ⟨h₂, hmade⟩
    refine .pure ⟨h₁.toExtends.trans h₂, List.forall_mem_cons.mpr ⟨fun i hi => ?_, hmade⟩⟩
    exact (h₁.lt_size i hi).trans_le h₂.size_le

/-- The steps of a node extend the draft, and what they gather is in its tree. -/
theorem runSteps_extends : (steps : List Step) → (made : Made) → ∀ {f : Filling},
    f.draft.HasComments → f.HasChildren →
    Yields (runSteps set steps made) f fun _ f' => f.Continues f'
  | [], _, _, _, hf => .pure (.refl hf)
  | .opening ⟨tag, label, plan⟩ :: steps, made, f, hd, hf => by
    rw [runSteps]
    refine .bind ((Fill.build_yields (Plan.build_extends label plan hd)).mono ?_)
    rintro x ⟨d₁, cs⟩ ⟨rfl, h₁⟩
    have hd₁ := h₁.toExtends.hasComments hd
    have hf₁ := hf.extends h₁.toExtends
    cases x with
    | none =>
      exact (runSteps_extends steps _ hd₁ hf₁).mono fun _ _ h =>
        ⟨h₁.toExtends.trans h.draft, h.hasChildren⟩
    | some i =>
      refine .bind ((Fill.appendFrom_continues hd₁ hf₁ (h₁.lt_size i rfl)).mono fun _ f₂ h₂ => ?_)
      exact (runSteps_extends steps _ (h₂.draft.hasComments hd₁) h₂.hasChildren).mono fun _ _ h =>
        ⟨h₁.toExtends.trans (h₂.draft.trans h.draft), h.hasChildren⟩
  | .together parts :: steps, made, f, hd, hf => by
    rw [runSteps]
    refine .bind ((Fill.build_yields (buildParts_extends parts hd)).mono ?_)
    rintro new ⟨d₁, cs⟩ ⟨rfl, h₁, hnew⟩
    have hd₁ := h₁.hasComments hd
    have hnew : ∀ x ∈ new.map (·.2), ∀ i ∈ x, i < d₁.tree.size := by
      simpa using fun x t hx => hnew (t, x) hx
    refine .bind ((Fill.appendAll_continues _ hd₁ (hf.extends h₁) hnew).mono fun _ f₂ h₂ => ?_)
    exact (runSteps_extends steps _ (h₂.draft.hasComments hd₁) h₂.hasChildren).mono fun _ _ h =>
      ⟨h₁.trans (h₂.draft.trans h.draft), h.hasChildren⟩

end

end LosslessGo
