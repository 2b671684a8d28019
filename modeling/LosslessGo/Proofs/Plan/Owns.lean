import LosslessGo.Proofs.Plan.Builds
import LosslessGo.Proofs.Plan.Shares

/-!
# What carrying out a plan owns

`Plan.build_owns`: all nodes that are added where a regular plan is carried out are below its node, each
once, and their fields share out what is below. `Filling.Gathered` says how the parts of a node and
its children go together, which `runSteps_owns` keeps.
-/

namespace LosslessGo

open scoped List

variable {set : Setting} {d d' d₁ d₂ : Draft} {k : Nat} {made new : Made} {f f' : Filling}
  {functions : List (Go.Key × Go.Block)}

/-! ## Parts and children -/

/-- The nodes made for parts are among the children. The other children are comments and tokens. Only
the end of the file is hidden among the parts. -/
structure Filling.Gathered (k : Nat) (made : Made) (f : Filling) : Prop where
  subperm : made.nodes <+~ f.children.toList
  shown : ∀ e ∈ made, ∀ i ∈ e.2, (f.draft.tree.node i).isVisible = true ∨ e.1 = endTag
  hidden : ∀ c ∈ f.children.toList,
    (f.draft.tree.node c).isVisible = true ∨ c < k ∨ ∃ e ∈ made, e.1 = endTag

namespace Filling.Gathered

theorem empty (d : Draft) : Gathered k [] ⟨d, #[]⟩ := ⟨by simp [Made.nodes], by simp, by simp⟩

theorem lt_size (h : f.Gathered k made) (hlt : ∀ c ∈ f.children.toList, c < f.draft.tree.size)
    {e : String × Option NodeId} (he : e ∈ made) {i : NodeId} (hi : i ∈ e.2) :
    i < f.draft.tree.size :=
  hlt i (h.subperm.subset (Made.mem_nodes.mpr ⟨e, he, hi⟩))

theorem grows (h : f.Gathered k made) (hlt : ∀ c ∈ f.children.toList, c < f.draft.tree.size)
    (hg : f.draft.Grows d') : Gathered k made ⟨d', f.children⟩ := by
  refine ⟨h.subperm, fun e he i hi => ?_, fun c hc => ?_⟩
  · rw [hg.tree.node_eq i (h.lt_size hlt he hi)]
    exact h.shown e he i hi
  · rw [hg.tree.node_eq c (hlt c hc)]
    exact h.hidden c hc

/-- New parts are gathered. -/
theorem takes (h : f.Gathered k made) (hbased : f.draft.Based k)
    (hlt : ∀ c ∈ f.children.toList ++ new.nodes, c < f.draft.tree.size)
    (hnew : ∀ e ∈ new, ∀ i ∈ e.2, (f.draft.tree.node i).isVisible = true ∨ e.1 = endTag)
    (ht : f.Takes new.nodes f') : f'.Gathered k (made ++ new) := by
  obtain ⟨cs, hcs, hperm⟩ := ht.perm
  have hchild : ∀ c ∈ f.children.toList, c < f.draft.tree.size :=
    fun c hc => hlt c (List.mem_append_left _ hc)
  have hpart : ∀ e ∈ new, ∀ i ∈ e.2, i < f.draft.tree.size :=
    fun e he i hi => hlt i (List.mem_append_right _ (Made.mem_nodes.mpr ⟨e, he, hi⟩))
  have hold := h.grows hchild ht.grows
  refine ⟨?_, fun e he i hi => ?_, fun c hc => ?_⟩
  · rw [Made.nodes_append]
    refine .trans (h.subperm.append (.refl _)) (.trans ?_ hperm.symm.subperm)
    rw [List.append_assoc]
    exact (List.sublist_append_left _ _).subperm
  · rcases List.mem_append.mp he with he | he
    · exact hold.shown e he i hi
    · rw [ht.grows.tree.node_eq i (hpart e he i hi)]
      exact hnew e he i hi
  · rcases List.mem_append.mp (hperm.mem_iff.mp hc) with hc | hc
    · rcases List.mem_append.mp hc with hc | hc
      · rcases List.mem_append.mp hc with hc | hc
        · refine (hold.hidden c hc).imp_right (.imp_right ?_)
          rintro ⟨e, he, hend⟩
          exact ⟨e, List.mem_append_left _ he, hend⟩
        · obtain ⟨e, he, hi⟩ := Made.mem_nodes.mp hc
          rw [ht.grows.tree.node_eq c (hpart e he c hi)]
          refine (hnew e he c hi).imp_right fun hend => .inr ?_
          exact ⟨e, List.mem_append_right _ he, hend⟩
      · exact .inr (.inl (hbased.comments c (hcs c hc)))
    · exact .inl (Node.visible_of_listed (ht.text c hc).listed)

/-- Parts are made, and then gathered. -/
theorem step (h : f.Gathered k made) (hx : d.Owns k f.children.toList f.draft)
    (hnew : f.draft.Owns k new.nodes d₁)
    (hshown : ∀ e ∈ new, ∀ i ∈ e.2, (d₁.tree.node i).isVisible = true ∨ e.1 = endTag)
    (ht : Takes ⟨d₁, f.children⟩ new.nodes f') :
    d.Owns k f'.children.toList f'.draft ∧ f'.Gathered k (made ++ new) := by
  have hx₁ := hx.trans hnew
  refine ⟨?_, (h.grows hx.lt_size hnew.grows).takes hx₁.based hx₁.lt_size hshown ht⟩
  have howns : d.Owns k (f.children.toList ++ (new.nodes ++ [])) d₁ := by
    rwa [List.append_nil]
  simpa using howns.takes ht

end Filling.Gathered

/-! ## Steps that make one node -/

/-- A step makes at most one node, which is visible, and owns what it adds. -/
structure Draft.OwnsOne (k : Nat) (d : Draft) (x : Option NodeId) (d' : Draft) : Prop where
  owns : d.Owns k x.toList d'
  visible : ∀ i ∈ x, (d'.tree.node i).isVisible = true

namespace Build

variable {o : Outcome} {h : Head} {children : List NodeId} {label text : String} {pos : Go.Pos}
  {kind : TokenKind} {form : LeafForm}

theorem leafMade_owns {offset : Nat} {type : NodeType} {entries : List (String × FieldValue)}
    {x : Option NodeId} (hmade : LeafMade set d offset kind type (.ofList entries) x d')
    (hd : d.Based k) (hentries : ∀ e ∈ entries, IsPlainName e.1 ∧ e.2.refs = [])
    (hkind : kind.isListed = true) : d.OwnsOne k x d' := by
  cases hmade with
  | none => exact ⟨.refl hd, by simp⟩
  | some n stop hn =>
    obtain ⟨range, token, htoken, -⟩ := hn.token_eq
    refine ⟨.leaf hd hn.children_eq (.of_entries hn.fields_eq hentries fun _ => ?_), ?_⟩
    · rw [hn.offset_eq, hn.stop_eq]
      exact hn.offset_lt (TokenKind.ne_endOfFile hkind)
    · rintro i ⟨⟩
      rw [show (d.add n).tree.node d.tree.size = n from Tree.node_push_size]
      simp [Node.isVisible, htoken, hkind]

theorem planned_owns (hd : d.Based k) (hkind : kind.isListed = true) (hform : form.Regular) :
    Yields (planned set label pos text kind form) d (d.OwnsOne k) := by
  cases form with
  | token n =>
    exact expectedLeaf_yields.mono fun _ _ hmade =>
      leafMade_owns hmade hd (tokenFields_entries _) hkind
  | typed type fields =>
    obtain ⟨-, entries, rfl, hentries⟩ := hform
    exact expectedLeaf_yields.mono fun _ _ hmade => leafMade_owns hmade hd hentries hkind

theorem endMark_owns (hd : d.Based k) :
    Yields (endMark set) d fun x d' => d.Owns k x.toList d' := by
  refine leaf_yields.mono ?_
  rintro x d' (⟨rfl, rfl, -⟩ | ⟨n, hn, rfl, rfl⟩)
  · exact .refl hd
  · obtain ⟨range, token, htoken, -⟩ := hn.token_eq
    refine .leaf hd hn.children_eq (.of_entries hn.fields_eq (tokenFields_entries _) fun hl => ?_)
    rw [Node.isListed, htoken] at hl
    cases hl

/-- A planned node is made over children. -/
theorem head_owns (hx : d.Owns k children d₁) (ho : o.Within d₁ k children)
    (hfields : FieldsRegular h.fields) :
    Yields (head set o h children) d₁ fun x d' => d₁.Grows d' ∧ d.OwnsOne k x d' := by
  refine .bind (.get (node_yields.mono fun x d₂ hmade => ?_))
  obtain ⟨hg, hown, hvisible⟩ := hx.node hmade Fields.ordered_ofList hfields.plain
    (fun c hc => ho.refs_visible hfields hc) (ho.refs_subperm hx.based.descends hfields)
  exact ⟨hg, hown, hvisible⟩

/-- The scope of the nodes below makes no difference. -/
theorem scope_owns {scope : Scope} (hd : d.Based k) : Yields (enterScope scope) d fun _ d₁ =>
    d₁.Based k ∧ ∀ xs d₂, d₁.Owns k xs d₂ → Yields (leaveScope scope) d₂ fun _ d₃ =>
      d₃.tree = d₂.tree ∧ d.Owns k xs d₃ := by
  cases scope with
  | shared => exact .pure ⟨hd, fun xs d₂ hx => .pure ⟨rfl, hx⟩⟩
  | own blocks =>
    rintro _ _ ⟨⟩
    refine ⟨⟨hd.le_size, hd.hidden, hd.bare, hd.comments, hd.descends⟩, fun xs d₂ hx => ?_⟩
    refine leaveScope_yields.mono ?_
    rintro _ _ ⟨rfl, -⟩
    exact ⟨rfl, hx.leave⟩

/-- The block of a clause stands for its statements. -/
theorem clauseBlock_owns (hx : d.Owns k children d₁)
    (hhidden : ∀ c ∈ children, (d₁.tree.node c).isVisible = true ∨ c < k) :
    Yields (clauseBlock set children) d₁ (d.OwnsOne k) := by
  have hvisible := hx.of_visible hhidden
  refine .bind (.get ?_)
  simp only
  split
  · rename_i i hi
    have hone : d₁.tree.visible children = [i] := by
      unfold soleBlock? at hi
      split at hi
      · split at hi
        · cases hi
          assumption
        · cases hi
      · cases hi
    rw [hone] at hvisible
    refine .pure ⟨hvisible, ?_⟩
    rintro _ ⟨⟩
    exact Tree.mem_visible (hone ▸ List.mem_singleton_self i)
  · refine node_yields.mono fun x d₂ hmade => ?_
    have hrefs : (Fields.ofList
        [("statementOrExpressions", .nodes (d₁.tree.visible children))]).refs =
          d₁.tree.visible children := List.append_nil _
    have hshared : (d₁.tree.visible children).flatMap (d₁.tree.later k) <+~
        children.flatMap (d₁.tree.later k) := ((d₁.tree.visible_sublist _).flatMap _).subperm
    rw [← hrefs] at hshared
    have hnode := hx.node hmade Fields.ordered_ofList
      (fun e he => by simp [List.mem_singleton.mp (Fields.mem_ofList he)])
      (fun c hc => Tree.mem_visible (hrefs ▸ hc)) hshared
    exact ⟨hnode.2.1, hnode.2.2⟩

end Build

/-- The node under a cover is what the cover is made of. -/
theorem Outcome.Within.cover {o : Outcome} {children : List NodeId} {core : Option NodeId}
    (ho : o.Within d₁ k children) (hx : d.Owns k children d₁) (hcore : d.OwnsOne k core d₂)
    (hg : d₁.Grows d₂) (hlt : ∀ c ∈ o.children, c < d₁.tree.size)
    (hmade : ∀ i ∈ o.made.nodes, i < d₁.tree.size) :
    Outcome.Within { o with core } d₂ k core.toList := by
  have hbelow := hx.subperm hcore.owns hg
  rw [hg.tree.flatMap_later hx.lt_size] at hbelow
  refine ⟨?_, ?_, .refl _, fun e he i hi => ?_, hcore.visible⟩
  · rw [hg.tree.flatMap_later hmade]
    exact ho.made.trans hbelow
  · rw [hg.tree.flatMap_later hlt]
    exact ho.own.trans hbelow
  · rw [hg.tree.node_eq i (hmade i (Made.mem_nodes.mpr ⟨e, he, hi⟩))]
    exact ho.shown e he i hi

/-! ## Plans -/

/-- What is made behind a step is made with its tags or with those of later steps. -/
theorem Made.tags_step {made new made' : Made} {t u : List String} (hnew : ∀ e ∈ new, e.1 ∈ t)
    (h : ∀ e ∈ made', e ∈ made ++ new ∨ e.1 ∈ u) : ∀ e ∈ made', e ∈ made ∨ e.1 ∈ t ++ u := by
  intro e he
  rcases h e he with he | he
  · exact (List.mem_append.mp he).imp_right fun he => List.mem_append_left _ (hnew e he)
  · exact .inr (List.mem_append_right _ he)

mutual

/-- A regular plan owns what it adds. -/
theorem Plan.build_owns (label : String) : (p : Plan) → p.Regular functions →
    ∀ {d : Draft}, d.Based k → Yields (p.build set label) d (d.OwnsOne k)
  | .absent, _, _, hd => .pure ⟨.refl hd, by simp⟩
  | .leaf .., hp, _, hd => Build.planned_owns hd hp.1 hp.2
  | .node scope head cover steps, ⟨⟨hhead, hcover, _⟩, hsteps⟩, d, hd => by
    rw [Plan.build]
    refine .bind ((Build.scope_owns hd).mono ?_)
    rintro - d₁ ⟨hd₁, hleave⟩
    refine .bind (Fill.gather_yields ((runSteps_owns steps [] hsteps (.refl hd₁)
      (.empty d₁)).mono ?_))
    rintro made ⟨d₂, cs⟩ ⟨hx₂, hgathered, -⟩
    refine .bind ((hleave _ _ hx₂).mono ?_)
    rintro graph d₃ ⟨htree, hx₃⟩
    have hlt : ∀ c ∈ cs.toList, c < d₃.tree.size := hx₃.lt_size
    have hmade : ∀ i ∈ made.nodes, i < d₃.tree.size := fun i hi => hlt i (hgathered.subperm.subset hi)
    have ho : Outcome.Within ⟨label, made, cs.toList, graph, none⟩ d₃ k cs.toList := by
      refine ⟨subperm_flatMap hgathered.subperm _, .refl _, List.nil_subperm, ?_, by simp⟩
      rw [htree]
      exact hgathered.shown
    refine .bind ((Build.head_owns hx₃ ho hhead).mono ?_)
    rintro core d₄ ⟨hg₄, hx₄⟩
    cases cover with
    | none => exact .pure hx₄
    | some outer =>
      exact (Build.head_owns hx₄.owns (ho.cover hx₃ hx₄ hg₄ hlt hmade) (hcover outer rfl)).mono
        fun _ _ h => h.2
  | .clauseBody steps, hp, d, hd => by
    rw [Plan.build]
    refine .bind (Fill.gather_yields ((runSteps_owns steps [] hp.2 (.refl hd) (.empty d)).mono ?_))
    rintro made ⟨d₁, cs⟩ ⟨hx₁, hgathered, htags⟩
    refine Build.clauseBlock_owns hx₁ fun c hc => (hgathered.hidden c hc).imp_right fun hhidden => ?_
    refine hhidden.resolve_right ?_
    rintro ⟨e, he, hend⟩
    rcases htags e he with he | he
    · cases he
    · exact hp.1 (hend ▸ he)
  | .firstOf first second, hp, d, hd => by
    rw [Plan.build]
    refine .bind ((Plan.build_owns label first hp.1 hd).mono ?_)
    rintro x d₁ hx₁
    cases x with
    | some i => exact .pure hx₁
    | none =>
      exact (Plan.build_owns label second hp.2 hx₁.owns.based).mono fun _ _ hx₂ =>
        ⟨hx₁.owns.trans hx₂.owns, hx₂.visible⟩

/-- Regular parts own what they add. Only the end of the file is hidden. -/
theorem buildParts_owns : (ps : List Part) → RegularParts functions ps →
    ∀ {d : Draft}, d.Based k →
    Yields (buildParts set ps) d fun made d' => d.Owns k made.nodes d' ∧
      (∀ e ∈ made, ∀ i ∈ e.2, (d'.tree.node i).isVisible = true ∨ e.1 = endTag) ∧
      ∀ e ∈ made, e.1 ∈ ps.map (·.tag)
  | [], _, _, hd => .pure ⟨.refl hd, by simp, by simp⟩
  | ⟨tag, label, plan⟩ :: parts, hp, d, hd => by
    have hpart : Yields (plan.build set label) d fun x d' => d.Owns k x.toList d' ∧
        ∀ i ∈ x, (d'.tree.node i).isVisible = true ∨ tag = endTag := by
      rcases hp.1 with hplan | ⟨htag, rfl⟩
      · exact (Plan.build_owns label plan hplan hd).mono fun _ _ h =>
          ⟨h.owns, fun i hi => .inl (h.visible i hi)⟩
      · exact (Build.endMark_owns hd).mono fun _ _ h => ⟨h, fun _ _ => .inr htag⟩
    rw [buildParts]
    refine .bind (hpart.mono ?_)
    rintro x d₁ ⟨hx₁, hshown₁⟩
    refine .bind ((buildParts_owns parts hp.2 hx₁.based).mono ?_)
    rintro made d₂ ⟨hx₂, hshown₂, htags⟩
    refine .pure ⟨?_, ?_, ?_⟩
    · rw [Made.nodes_cons]
      exact hx₁.trans hx₂
    · refine List.forall_mem_cons.mpr ⟨fun i hi => ?_, hshown₂⟩
      rw [hx₂.grows.tree.node_eq i (hx₁.lt_size i (Option.mem_toList.mpr hi))]
      exact hshown₁ i hi
    · refine List.forall_mem_cons.mpr ⟨by simp, fun e he => ?_⟩
      exact List.mem_cons_of_mem _ (htags e he)

/-- Regular steps gather all that they own. -/
theorem runSteps_owns {first : Bool} : (steps : List Step) → (made : Made) →
    RegularSteps functions first steps → ∀ {d : Draft} {f : Filling},
    d.Owns k f.children.toList f.draft →
    f.Gathered k made → Yields (runSteps set steps made) f fun made' f' =>
      d.Owns k f'.children.toList f'.draft ∧ f'.Gathered k made' ∧
      ∀ e ∈ made', e ∈ made ∨ e.1 ∈ stepTags steps
  | [], _, _, _, f, hx, hgathered => .pure ⟨hx, hgathered, fun _ => .inl⟩
  | .opening ⟨tag, label, plan⟩ :: steps, made, hp, d, f, hx, hgathered => by
    obtain ⟨-, hplan, hsteps⟩ := regularSteps_opening.mp hp
    rw [runSteps]
    refine .bind ((Fill.build_yields (Plan.build_owns label plan hplan hx.based)).mono ?_)
    rintro x ⟨d₁, cs⟩ ⟨rfl, hx₁⟩
    have hnodes : Made.nodes [(tag, x)] = x.toList := Made.nodes_singleton _
    have hrest (f₂ : Filling) (ht : Filling.Takes ⟨d₁, f.children⟩ x.toList f₂) :
        Yields (runSteps set steps (made ++ [(tag, x)])) f₂ fun made' f' =>
          d.Owns k f'.children.toList f'.draft ∧ f'.Gathered k made' ∧
          ∀ e ∈ made', e ∈ made ∨ e.1 ∈ stepTags (.opening ⟨tag, label, plan⟩ :: steps) := by
      obtain ⟨hx₂, hgathered₂⟩ := hgathered.step hx (hnodes ▸ hx₁.owns)
        (by simpa using fun i hi => .inl (hx₁.visible i hi)) (hnodes ▸ ht)
      exact (runSteps_owns steps _ hsteps hx₂ hgathered₂).mono fun made' _ h =>
        ⟨h.1, h.2.1, Made.tags_step (t := [tag]) (by simp) h.2.2⟩
    cases x with
    | none => exact hrest _ (.refl _)
    | some i => exact .bind (Fill.appendFrom_takes.mono fun _ f₂ ht => hrest f₂ ht)
  | .together parts :: steps, made, hp, d, f, hx, hgathered => by
    rw [runSteps]
    refine .bind ((Fill.build_yields (buildParts_owns parts hp.1 hx.based)).mono ?_)
    rintro new ⟨d₁, cs⟩ ⟨rfl, hx₁, hshown, htags⟩
    refine .bind (Fill.appendAll_takes.mono ?_)
    rintro - f₂ ht
    obtain ⟨hx₂, hgathered₂⟩ := hgathered.step hx hx₁ hshown ht
    exact (runSteps_owns steps _ hp.2 hx₂ hgathered₂).mono fun made' _ h =>
      ⟨h.1, h.2.1, Made.tags_step htags h.2.2⟩

end

end LosslessGo
