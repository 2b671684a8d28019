import LosslessGo.Proofs.Draft.Gap
import LosslessGo.Proofs.Plan.Regular

/-!
# Carrying out a plan loses nothing

`Plan.build_keeps`: where a regular plan is carried out on a sound draft, the draft stays sound, and
nothing in it changes that was there before. `runSteps_keeps` says so of the children of a node.
-/

namespace LosslessGo

open Go (Key)

variable {set : Setting} {d d' : Draft} {functions : List (Go.Key × Go.Block)}

/-- What a step that makes at most one node keeps. -/
structure Keeps (set : Setting) (d : Draft) (x : Option NodeId) (d' : Draft) : Prop where
  grows : d.Grows d'
  sound : d'.Sound set
  lt_size : ∀ i ∈ x, i < d'.tree.size

namespace Keeps

theorem absent (h : d.Sound set) : Keeps set d none d := ⟨.refl d, h, by simp⟩

theorem trans {x y : Option NodeId} {d'' : Draft} (h : Keeps set d x d') (h' : Keeps set d' y d'') :
    Keeps set d y d'' :=
  ⟨h.grows.trans h'.grows, h'.sound, h'.lt_size⟩

/-- One more node that fits. -/
theorem push {n : Node} (h : d.Sound set) (htree : d'.tree = d.tree.push n)
    (hcomments : d'.comments = d.comments)
    (hn : n.IsLeafIn set ∨
      (n.Spans set (n.children.map d.tree.node) ∧ ∀ c ∈ n.children, c < d.tree.size)) :
    Keeps set d (some d.tree.size) d' := by
  refine ⟨⟨?_, hcomments⟩, ⟨?_, ?_⟩, ?_⟩
  · rw [htree]
    exact .push _ _
  · rw [htree]
    exact h.tree.push hn
  · rw [hcomments, htree]
    exact fun c hc => (h.comments c hc).trans (by simp)
  · rintro i ⟨⟩
    simp [htree]

end Keeps

/-! ## Steps that make one node -/

/-- A node that was added and got a number is a node with one more field. -/
theorem Draft.number_tree (d : Draft) (n : Node) (origin : Option Key) :
    ∃ fields, ((d.add n).number d.tree.size origin).tree = d.tree.push { n with fields } := by
  cases origin with
  | none => exact ⟨n.fields, rfl⟩
  | some key => exact ⟨_, Tree.modify_push _ _ _⟩

theorem Draft.number_comments (d : Draft) (n : Node) (origin : Option Key) :
    ((d.add n).number d.tree.size origin).comments = d.comments := by
  cases origin <;> rfl

theorem LeafMade.keeps {offset : Nat} {kind : TokenKind} {type : NodeType} {fields : Fields}
    {x : Option NodeId} (h : LeafMade set d offset kind type fields x d') (hs : d.Sound set)
    (hk : kind ≠ .endOfFile) : Keeps set d x d' := by
  cases h with
  | none => exact .absent hs
  | some n stop hn => exact .push hs rfl rfl (.inl (hn.isLeafIn fun e => absurd e hk))

theorem NodeMade.keeps {origin : Option Key} {type : NodeType} {fields : Fields}
    {children : List NodeId} {x : Option NodeId}
    (h : NodeMade set d origin type fields children x d') (hs : d.Sound set)
    (hlt : ∀ c ∈ children, c < d.tree.size)
    (hchain : (children.map d.tree.node).IsChain (Node.Adjoins set)) : Keeps set d x d' := by
  cases h with
  | none => exact .absent hs
  | leaf n key he ho hn =>
    obtain ⟨fields', htree⟩ := d.number_tree n (some key)
    refine .push hs htree (d.number_comments n (some key)) (.inl ?_)
    have hl := hn.isLeafIn fun e => by cases e
    exact ⟨hl.isLeaf, hl.children_eq, hl.offset_le, hl.stop_le, hl.stop_eq⟩
  | inner first last hfirst hlast =>
    obtain ⟨fields', htree⟩ :=
      d.number_tree (innerNode d.tree first last children type fields) origin
    refine .push hs htree (d.number_comments _ origin) (.inr ⟨⟨rfl, ?_, ?_, hchain⟩, hlt⟩)
    · simp [innerNode, hfirst]
    · simp [innerNode, hlast]

namespace Build

theorem node_keeps {origin : Option Key} {type : NodeType} {fields : Fields}
    {children : List NodeId} (hs : d.Sound set) (hlt : ∀ c ∈ children, c < d.tree.size)
    (hchain : (children.map d.tree.node).IsChain (Node.Adjoins set)) :
    Yields (node set origin type fields children) d (Keeps set d) :=
  node_yields.mono fun _ _ h => h.keeps hs hlt hchain

theorem head_keeps {o : Outcome} {h : Head} {children : List NodeId} (hs : d.Sound set)
    (hlt : ∀ c ∈ children, c < d.tree.size)
    (hchain : (children.map d.tree.node).IsChain (Node.Adjoins set)) :
    Yields (head set o h children) d (Keeps set d) :=
  .bind (.get (node_keeps hs hlt hchain))

theorem planned_keeps {label text : String} {pos : Go.Pos} {kind : TokenKind} {form : LeafForm}
    (hs : d.Sound set) (hk : kind.isListed = true) :
    Yields (planned set label pos text kind form) d (Keeps set d) := by
  have hk := TokenKind.ne_endOfFile hk
  cases form with
  | token n => exact expectedLeaf_yields.mono fun _ _ h => h.keeps hs hk
  | typed type fields => exact expectedLeaf_yields.mono fun _ _ h => h.keeps hs hk

theorem endMark_keeps (hs : d.Sound set) :
    Yields (endMark set) d fun x d' => Keeps set d x d' ∧
      ∃ i ∈ x, (d'.tree.node i).stop = set.size := by
  refine leaf_yields.mono ?_
  rintro x d' (⟨-, -, -, hk, -⟩ | ⟨n, hn, rfl, rfl⟩)
  · exact absurd rfl hk
  · refine ⟨.push hs rfl rfl (.inl (hn.isLeafIn fun _ => rfl)), _, rfl, ?_⟩
    rw [show (d.add n).tree.node d.tree.size = n from Tree.node_push_size]
    exact hn.stop_eq

theorem enterScope_keeps {scope : Scope} (hs : d.Sound set) :
    Yields (enterScope scope) d fun _ d' => d.Grows d' ∧ d'.Sound set := by
  cases scope with
  | shared => exact .pure ⟨.refl d, hs⟩
  | own blocks =>
    rintro _ _ ⟨⟩
    exact ⟨⟨.refl _, rfl⟩, hs.tree, hs.comments⟩

theorem leaveScope_keeps {scope : Scope} (hs : d.Sound set) :
    Yields (leaveScope scope) d fun _ d' => d'.tree = d.tree ∧ d.Grows d' ∧ d'.Sound set := by
  cases scope with
  | shared => exact .pure ⟨rfl, .refl d, hs⟩
  | own blocks =>
    refine .bind ?_
    rintro _ _ ⟨⟩
    exact .pure ⟨rfl, ⟨.refl _, rfl⟩, hs.tree, hs.comments⟩

theorem soleBlock?_mem {children : List NodeId} {i : NodeId}
    (h : soleBlock? d (d.tree.visible children) = some i) : i ∈ children := by
  unfold soleBlock? at h
  split at h
  · rename_i j hj
    split at h
    · obtain rfl := Option.some.inj h
      have hmem : j ∈ d.tree.visible children := hj ▸ List.mem_singleton_self j
      exact (List.mem_filter.mp hmem).1
    · cases h
  · cases h

theorem clauseBlock_keeps {children : List NodeId} (hs : d.Sound set)
    (hlt : ∀ c ∈ children, c < d.tree.size)
    (hchain : (children.map d.tree.node).IsChain (Node.Adjoins set)) :
    Yields (clauseBlock set children) d (Keeps set d) := by
  refine .bind (.get ?_)
  simp only
  split
  · rename_i i hi
    refine .pure ⟨.refl d, hs, ?_⟩
    rintro _ ⟨⟩
    exact hlt i (soleBlock?_mem hi)
  · exact node_keeps hs hlt hchain

end Build

/-! ## Plans -/

namespace Fill

theorem gather_yields {α : Type} {x : Fill α} {Q : α × List NodeId → Draft → Prop}
    (h : Yields x ⟨d, #[]⟩ fun a f' => Q (a, f'.children.toList) f'.draft) :
    Yields (gather x) d Q := by
  rintro a d' hx
  simp only [gather] at hx
  split at hx
  · cases hx
    exact h _ _ ‹_›
  · cases hx

end Fill

/-- A draft without children loses nothing. -/
theorem Filling.kept_empty {start : Option Nat} (h : d.Sound set) :
    Filling.Kept set start ⟨d, #[]⟩ :=
  ⟨h, by simp, by simp [Filling.nodes], by simp [Filling.nodes]⟩

mutual

/-- A regular plan keeps a draft sound. -/
theorem Plan.build_keeps (label : String) : (p : Plan) → p.Regular functions →
    ∀ {d : Draft}, d.Sound set → Yields (p.build set label) d (Keeps set d)
  | .absent, _, _, hs => .pure (.absent hs)
  | .leaf .., hp, _, hs => Build.planned_keeps hs hp.1
  | .node scope head cover steps, hp, d, hs => by
    rw [Plan.build]
    refine .bind ((Build.enterScope_keeps hs).mono ?_)
    rintro - d₁ ⟨hg₁, hs₁⟩
    refine .bind (Fill.gather_yields ((runSteps_keeps steps [] hp.2 (Filling.kept_empty hs₁)
      (fun _ => rfl) (.inl rfl)).mono ?_))
    rintro made ⟨d₂, cs⟩ ⟨hx, hk₂⟩
    refine .bind ((Build.leaveScope_keeps hk₂.sound).mono ?_)
    rintro graph d₃ ⟨htree, hg₃, hs₃⟩
    have hlt : ∀ c ∈ cs.toList, c < d₃.tree.size := by
      rw [htree]
      exact hk₂.lt_size
    have hchain : (cs.toList.map d₃.tree.node).IsChain (Node.Adjoins set) := by
      rw [htree]
      exact hk₂.chain
    have hg : d.Grows d₃ := hg₁.trans (hx.draft.trans hg₃)
    refine .bind ((Build.head_keeps hs₃ hlt hchain).mono ?_)
    rintro core d₄ hk₄
    cases cover with
    | none => exact .pure ⟨hg.trans hk₄.grows, hk₄.sound, hk₄.lt_size⟩
    | some outer =>
      refine (Build.head_keeps hk₄.sound ?_ ?_).mono fun _ _ hk₅ =>
        ⟨hg.trans (hk₄.grows.trans hk₅.grows), hk₅.sound, hk₅.lt_size⟩
      · exact fun c hc => hk₄.lt_size c (by simpa using hc)
      · cases core <;> simp
  | .clauseBody steps, hp, d, hs => by
    rw [Plan.build]
    refine .bind (Fill.gather_yields ((runSteps_keeps steps [] hp.2 (Filling.kept_empty hs)
      (fun h => by cases h) (.inl rfl)).mono ?_))
    rintro made ⟨d₁, cs⟩ ⟨hx, hk₁⟩
    exact (Build.clauseBlock_keeps hk₁.sound hk₁.lt_size hk₁.chain).mono fun _ _ hk₂ =>
      ⟨hx.draft.trans hk₂.grows, hk₂.sound, hk₂.lt_size⟩
  | .firstOf first second, hp, d, hs => by
    rw [Plan.build]
    refine .bind ((Plan.build_keeps label first hp.1 hs).mono ?_)
    rintro x d₁ hk₁
    cases x with
    | some i => exact .pure hk₁
    | none => exact (Plan.build_keeps label second hp.2 hk₁.sound).mono fun _ _ => hk₁.trans

/-- Regular parts keep a draft sound. -/
theorem buildParts_keeps : (ps : List Part) → RegularParts functions ps →
    ∀ {d : Draft}, d.Sound set → Yields (buildParts set ps) d fun made d' =>
      d.Grows d' ∧ d'.Sound set ∧ ∀ e ∈ made, ∀ i ∈ e.2, i < d'.tree.size
  | [], _, d, hs => .pure ⟨.refl d, hs, by simp⟩
  | ⟨tag, label, plan⟩ :: parts, hp, d, hs => by
    have hpart : Yields (plan.build set label) d (Keeps set d) := by
      rcases hp.1 with hplan | ⟨-, rfl⟩
      · exact Plan.build_keeps label plan hplan hs
      · exact (Build.endMark_keeps hs).mono fun _ _ h => h.1
    rw [buildParts]
    refine .bind (hpart.mono ?_)
    rintro x d₁ hk₁
    refine .bind ((buildParts_keeps parts hp.2 hk₁.sound).mono ?_)
    rintro made d₂ ⟨hg₂, hs₂, hlt₂⟩
    refine .pure ⟨hk₁.grows.trans hg₂, hs₂, ?_⟩
    rw [List.forall_mem_cons]
    exact ⟨fun i hi => (hk₁.lt_size i hi).trans_le hg₂.tree.size_le, hlt₂⟩

/-- Regular steps lose nothing between the children that they gather. -/
theorem runSteps_keeps {first : Bool} {start : Option Nat} : (steps : List Step) → (made : Made) →
    RegularSteps functions first steps → ∀ {f : Filling}, f.Kept set start →
    (first = true → f.children = #[]) → (start = none ∨ (first = false ∧ f.children ≠ #[])) →
    Yields (runSteps set steps made) f fun _ f' => f.Extends f' ∧ f'.Kept set start
  | [], _, _, f, hk, _, _ => .pure ⟨.refl f, hk⟩
  | .opening ⟨tag, label, plan⟩ :: steps, made, hp, f, hk, hfirst, hstart => by
    obtain ⟨rfl, hplan, hsteps⟩ := regularSteps_opening.mp hp
    obtain rfl : start = none := hstart.resolve_right (by simp)
    rw [runSteps]
    refine .bind ((Fill.build_yields (Plan.build_keeps label plan hplan hk.sound)).mono ?_)
    rintro x ⟨d₁, cs⟩ ⟨rfl, hk₁⟩
    have hkept : Filling.Kept set none ⟨d₁, f.children⟩ := hk.grows hk₁.grows hk₁.sound
    have hx₁ : f.Extends ⟨d₁, f.children⟩ := ⟨hk₁.grows, List.prefix_refl _⟩
    cases x with
    | none =>
      exact (runSteps_keeps steps _ hsteps hkept (fun h => by cases h) (.inl rfl)).mono
        fun _ _ h => ⟨hx₁.trans h.1, h.2⟩
    | some i =>
      have hr := hkept.reaches_start (a := 0) (by simp [Filling.nodes, hfirst rfl]) (by simp)
      refine .bind ((Fill.appendFrom_yields hr (hk₁.lt_size i rfl)).mono ?_)
      rintro - f₂ ⟨hx₂, hk₂, -⟩
      exact (runSteps_keeps steps _ hsteps hk₂ (fun h => by cases h) (.inl rfl)).mono
        fun _ _ h => ⟨hx₁.trans (hx₂.trans h.1), h.2⟩
  | .together parts :: steps, made, hp, f, hk, _, hstart => by
    have hstart' : start = none ∨ f.children ≠ #[] := hstart.imp_right (·.2)
    rw [runSteps]
    refine .bind ((Fill.build_yields (buildParts_keeps parts hp.1 hk.sound)).mono ?_)
    rintro new ⟨d₁, cs⟩ ⟨rfl, hg₁, hs₁, hlt₁⟩
    have hx₁ : f.Extends ⟨d₁, f.children⟩ := ⟨hg₁, List.prefix_refl _⟩
    refine .bind ((Fill.appendAll_yields (hk.grows hg₁ hs₁) ?_ hstart').mono ?_)
    · intro x hx i hi
      obtain ⟨e, he, rfl⟩ := List.mem_map.mp hx
      exact hlt₁ e he i hi
    rintro - f₂ ⟨hx₂, hk₂⟩
    refine (runSteps_keeps steps _ hp.2 hk₂ (fun h => by cases h) ?_).mono
      fun _ _ h => ⟨hx₁.trans (hx₂.trans h.1), h.2⟩
    exact hstart'.imp_right fun h => ⟨rfl, (hx₁.trans hx₂).ne_empty h⟩

end

end LosslessGo
