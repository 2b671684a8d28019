import LosslessGo.Proofs.Plan.Laid
import LosslessGo.Proofs.Plan.Sure

/-!
# What a planned node is made of

The steps of a node make its parts, one after the other, and lay out their nodes as its children.

* `Plan.Built`, `PartsMade`: a plan, and the parts of a node, were carried out between two drafts.
* `runSteps_laid`: steps make parts and lay them out.
* `NodeMade.stands`: what is known of a node that is made over children.
* `Plan.planned_of_build`: all that is known of the node of a plan (`Draft.Planned`).
-/

namespace LosslessGo

open Go (Key)

variable {set : Setting} {d d' d'' d₁ d₂ : Draft} {f f' : Filling} {x : Option NodeId} {i : NodeId}

/-! ## Parts that are made -/

/-- The plan was carried out between two drafts, with the result `x`. -/
def Plan.Built (set : Setting) (d : Draft) (p : Plan) (x : Option NodeId) (d' : Draft) : Prop :=
  ∃ label d₁ d₂, d.Extends d₁ ∧ p.build set label d₁ = .ok x d₂ ∧ d₂.Extends d'

namespace Plan.Built

variable {p : Plan}

theorem start (hd : d.Extends d₁) (h : p.Built set d₁ x d') : p.Built set d x d' := by
  obtain ⟨label, d₂, d₃, hd₁, hx, hd'⟩ := h
  exact ⟨label, d₂, d₃, hd.trans hd₁, hx, hd'⟩

theorem later (h : p.Built set d x d') (hd : d'.Extends d'') : p.Built set d x d'' := by
  obtain ⟨label, d₁, d₂, hd₁, hx, hd'⟩ := h
  exact ⟨label, d₁, d₂, hd₁, hx, hd'.trans hd⟩

end Plan.Built

/-- In strict mode a plan that is sure to make a node did. -/
theorem Plan.IsSure.built {p : Plan} (h : p.IsSure) (hstrict : set.strict = true)
    (hx : p.Built set d x d') : ∃ i, x = some i := by
  obtain ⟨label, d₁, d₂, -, hx, -⟩ := hx
  exact Option.isSome_iff_exists.mp (h.isSome hstrict x d₂ hx)

/-- The parts of a node were made one after the other, in drafts between two others. -/
inductive PartsMade (set : Setting) : Draft → List Part → Made → Draft → Prop where
  | nil {d d' : Draft} : d.Extends d' → PartsMade set d [] [] d'
  | cons {d d₁ d₂ d' : Draft} {part : Part} {parts : List Part} {x : Option NodeId} {made : Made} :
    d.Extends d₁ → part.plan.build set part.label d₁ = .ok x d₂ → PartsMade set d₂ parts made d' →
    PartsMade set d (part :: parts) ((part.tag, x) :: made) d'

namespace PartsMade

variable {parts parts' : List Part} {made made' : Made}

theorem start (hd : d.Extends d₁) (h : PartsMade set d₁ parts made d') :
    PartsMade set d parts made d' := by
  cases h with
  | nil h => exact .nil (hd.trans h)
  | cons h hx hrest => exact .cons (hd.trans h) hx hrest

theorem later (h : PartsMade set d parts made d') (hd : d'.Extends d'') :
    PartsMade set d parts made d'' := by
  induction h with
  | nil h => exact .nil (h.trans hd)
  | cons h hx _ ih => exact .cons h hx (ih hd)

theorem append (h : PartsMade set d parts made d') (h' : PartsMade set d' parts' made' d'') :
    PartsMade set d (parts ++ parts') (made ++ made') d'' := by
  induction h with
  | nil hd => exact h'.start hd
  | cons h hx _ ih => exact .cons h hx (ih h')

theorem tags_eq (h : PartsMade set d parts made d') : made.map (·.1) = parts.map (·.tag) := by
  induction h with
  | nil => rfl
  | cons _ _ _ ih => exact congrArg (_ :: ·) ih

theorem extends_draft (h : PartsMade set d parts made d') (hd : d.HasComments) : d.Extends d' := by
  induction h with
  | nil h => exact h
  | cons h hx _ ih =>
    have hd₁ := h.hasComments hd
    have hnext := (Plan.build_extends _ _ hd₁ _ _ hx).toExtends
    exact h.trans (hnext.trans (ih (hnext.hasComments hd₁)))

theorem of_append (h : PartsMade set d (parts ++ parts') made d') (hd : d.HasComments) :
    ∃ new new', made = new ++ new' ∧ PartsMade set d parts new d' ∧ PartsMade set d parts' new' d' := by
  induction parts generalizing d made with
  | nil => exact ⟨[], made, rfl, .nil (h.extends_draft hd), h⟩
  | cons part parts ih =>
    cases h with
    | cons hd₁ hx hrest =>
      have hnext := (Plan.build_extends _ _ (hd₁.hasComments hd) _ _ hx).toExtends
      have hd₂ := hd₁.trans hnext
      obtain ⟨new, new', rfl, hnew, hnew'⟩ := ih hrest (hd₂.hasComments hd)
      exact ⟨_ :: new, new', rfl, .cons hd₁ hx hnew, hnew'.start hd₂⟩

theorem of_singleton {part : Part} (h : PartsMade set d [part] made d') :
    ∃ x, made = [(part.tag, x)] ∧ part.plan.Built set d x d' := by
  cases h with
  | cons hd hx hrest =>
    cases hrest with
    | nil hd' => exact ⟨_, rfl, _, _, _, hd, hx, hd'⟩

/-- Each of the parts was carried out. -/
theorem built (h : PartsMade set d parts made d') (hd : d.HasComments) :
    List.Forall₂ (fun part e => ∃ x, e = (part.tag, x) ∧ part.plan.Built set d x d') parts made := by
  induction h with
  | nil h => exact .nil
  | cons h hx hrest ih =>
    have hd₁ := h.hasComments hd
    have hnext := (Plan.build_extends _ _ hd₁ _ _ hx).toExtends
    have hd₂ := hnext.hasComments hd₁
    refine .cons ⟨_, rfl, _, _, _, h, hx, hrest.extends_draft hd₂⟩ ((ih hd₂).imp ?_)
    rintro part e ⟨x, he, hb⟩
    exact ⟨x, he, hb.start (h.trans hnext)⟩

/-- Each of the items was carried out. -/
theorem built_items {tag : String} {ps : List Plan} (h : PartsMade set d (itemParts tag ps) made d')
    (hd : d.HasComments) :
    List.Forall₂ (fun p x => p.Built set d x d') ps (made.map (·.2)) := by
  have hplans : (itemParts tag ps).map (·.plan) = ps := by
    rw [itemParts, List.map_map]
    exact List.zipIdx_map_fst _ _
  rw [← hplans, List.forall₂_map_left_iff, List.forall₂_map_right_iff]
  refine (h.built hd).imp ?_
  rintro part _ ⟨x, rfl, hb⟩
  exact hb

/-- A part was carried out, and is known by its tag. -/
theorem part_built (h : PartsMade set d parts made d') (hd : d.HasComments)
    (hnodup : (parts.map (·.tag)).Nodup) {part : Part} (hpart : part ∈ parts) :
    part.plan.Built set d (made.part part.tag) d' := by
  have hbuilt := h.built hd
  clear h
  induction hbuilt with
  | nil => cases hpart
  | @cons first e parts made hfirst hrest ih =>
    obtain ⟨x, rfl, hx⟩ := hfirst
    rw [List.map_cons, List.nodup_cons] at hnodup
    rcases List.mem_cons.mp hpart with rfl | hpart
    · rwa [Made.part, List.lookup_cons_self]
    · have hne : part.tag ≠ first.tag :=
        fun heq => hnodup.1 (heq ▸ List.mem_map_of_mem hpart)
      rw [Made.part, List.lookup_cons, beq_eq_false_iff_ne.mpr hne]
      exact ih hnodup.2 hpart

end PartsMade

theorem buildParts_made (parts : List Part) (hd : d.HasComments) :
    Yields (buildParts set parts) d fun made d' => PartsMade set d parts made d' := by
  induction parts generalizing d with
  | nil => exact .pure (.nil (.refl d))
  | cons part parts ih =>
    obtain ⟨tag, label, plan⟩ := part
    rw [buildParts]
    refine .bind fun x d₁ hx => ?_
    have hd₁ := (Plan.build_extends label plan hd x d₁ hx).toExtends.hasComments hd
    exact .bind ((ih hd₁).mono fun made d₂ hmade => .pure (.cons (.refl d) hx hmade))

/-! ## Steps -/

namespace Step

/-- The parts that a step makes. -/
def parts : Step → List Part
  | .opening part => [part]
  | .together parts => parts

/-- The step gathers nothing before the first child. -/
def IsTogether (s : Step) : Prop := s = .together s.parts

end Step

/-- The parts that steps make. -/
def partsOfSteps (steps : List Step) : List Part := steps.flatMap Step.parts

@[simp] theorem partsOfSteps_nil : partsOfSteps [] = [] := rfl

@[simp] theorem partsOfSteps_append (steps steps' : List Step) :
    partsOfSteps (steps ++ steps') = partsOfSteps steps ++ partsOfSteps steps' :=
  List.flatMap_append

@[simp] theorem partsOfSteps_tagged (tag label : String) (p : Plan) (steps : List Step) :
    partsOfSteps (.tagged tag label p :: steps) = ⟨tag, label, p⟩ :: partsOfSteps steps := rfl

@[simp] theorem partsOfSteps_one (label : String) (p : Plan) (steps : List Step) :
    partsOfSteps (.one label p :: steps) = ⟨label, label, p⟩ :: partsOfSteps steps := rfl

@[simp] theorem partsOfSteps_together (parts : List Part) (steps : List Step) :
    partsOfSteps (.together parts :: steps) = parts ++ partsOfSteps steps := rfl

@[simp] theorem partsOfSteps_itemSteps (tag : String) (ps : List Plan) :
    partsOfSteps (itemSteps tag ps) = itemParts tag ps := by
  rw [partsOfSteps, itemSteps, List.flatMap_map]
  exact List.flatMap_singleton' _

@[simp] theorem isTogether_together (parts : List Part) : (Step.together parts).IsTogether := rfl

@[simp] theorem isTogether_one (label : String) (p : Plan) : (Step.one label p).IsTogether := rfl

@[simp] theorem isTogether_tagged (tag label : String) (p : Plan) :
    (Step.tagged tag label p).IsTogether := rfl

theorem isTogether_itemSteps (tag : String) (ps : List Plan) :
    ∀ s ∈ itemSteps tag ps, s.IsTogether := by
  intro s hs
  obtain ⟨p, -, rfl⟩ := List.mem_map.mp hs
  rfl

/-- The steps of a node make its parts, and lay out their nodes. -/
theorem runSteps_laid (steps : List Step) (hsteps : ∀ s ∈ steps, s.IsTogether) {made : Made}
    (h : f.Laid set d made.nodes) (hd : d.HasComments) :
    Yields (runSteps set steps made) f fun made' f' => ∃ new, made' = made ++ new ∧
      PartsMade set f.draft (partsOfSteps steps) new f'.draft ∧ f'.Laid set d made'.nodes := by
  induction steps generalizing f made with
  | nil =>
    refine .pure ⟨[], by simp, .nil (.refl _), h⟩
  | cons s steps ih =>
    obtain ⟨hs, hsteps⟩ := List.forall_mem_cons.mp hsteps
    rw [show s = .together s.parts from hs, runSteps]
    have hcomments := h.extended.hasComments hd
    refine .bind ((Fill.build_yields
      ((buildParts_extends s.parts hcomments).and (buildParts_made s.parts hcomments))).mono ?_)
    rintro new ⟨d₁, cs⟩ ⟨rfl, ⟨hd₁, hnew⟩, hmade⟩
    have hlt : ∀ x ∈ new.map (·.2), ∀ i ∈ x, i < d₁.tree.size := by
      simpa using fun x t hx => hnew (t, x) hx
    refine .bind ((Fill.appendAll_laid _ (h.later hd₁) hd hlt).mono fun _ f₂ ⟨hf₂, h₂⟩ => ?_)
    rw [← Made.nodes, ← Made.nodes_append] at h₂
    refine (ih hsteps h₂).mono ?_
    rintro made' f' ⟨rest, rfl, hrest, hlaid⟩
    refine ⟨new ++ rest, List.append_assoc _ _ _, ?_, hlaid⟩
    exact (hmade.later hf₂.draft).append hrest

/-! ## Nodes -/

/-- Node `i` was made of the children: it has the span from the first to the last. -/
structure Draft.Stands (d : Draft) (origin : Option Key) (type : NodeType) (fields : Fields)
    (children : List NodeId) (i : NodeId) (d' : Draft) : Prop where
  lt_size : i < d'.tree.size
  type_eq : (d'.tree.node i).type = type
  children_eq : d'.tree.children i = children
  visible : (d'.tree.node i).isVisible = true
  field?_eq : ∀ name ≠ Node.flowIdName, (d'.tree.node i).field? name = fields.get? name
  offset_eq : ∀ first ∈ children.head?, (d'.tree.node i).offset = (d.tree.node first).offset
  stop_eq : ∀ last ∈ children.getLast?, (d'.tree.node i).stop = (d.tree.node last).stop
  span_eq : children = [] → ∀ key ∈ origin,
    (d'.tree.node i).offset = key.start.toNat ∧ (d'.tree.node i).stop = key.stop.toNat

/-- A node that is added stands last, and its number is the only field that is new. -/
theorem Draft.number_last (d : Draft) (n : Node) (origin : Option Key) :
    ∃ fields, (∀ name ≠ Node.flowIdName, fields.get? name = n.fields.get? name) ∧
      d.tree.size < ((d.add n).number d.tree.size origin).tree.size ∧
      ((d.add n).number d.tree.size origin).tree.node d.tree.size = { n with fields } := by
  have hlast (m : Node) : d.tree.size < (d.tree.push m).size ∧ (d.tree.push m).node d.tree.size = m := by
    rw [Tree.size_push]
    exact ⟨Nat.lt_succ_self _, Tree.node_push_size⟩
  cases origin with
  | none => exact ⟨n.fields, fun _ _ => rfl, hlast n⟩
  | some key =>
    refine ⟨_, fun name hname => ?_, Tree.modify_push d.tree n _ ▸ hlast _⟩
    rw [Fields.get?_insert, if_neg hname]

theorem NodeMade.stands {origin : Option Key} {type : NodeType} {fields : Fields}
    {children : List NodeId} (h : NodeMade set d origin type fields children (some i) d') :
    d.Stands origin type fields children i d' := by
  cases h with
  | leaf n key hchildren horigin hn =>
    obtain ⟨fields', hfields, hlt, hnode⟩ := d.number_last n (some key)
    simp only [Draft.number] at hlt hnode
    obtain ⟨range, text, htoken, -⟩ := hn.token_eq
    refine ⟨hlt, ?_, ?_, ?_, fun name hname => ?_, by simp [hchildren], by simp [hchildren], ?_⟩
    · rw [hnode, hn.type_eq]
    · rw [Tree.children, hnode, hn.children_eq, hchildren]
    · simp [hnode, Node.isVisible, htoken, TokenKind.isListed]
    · rw [hnode, Node.field?, hfields name hname, hn.fields_eq]
    · rintro - _ hkey
      obtain rfl := Option.some_inj.mp (horigin.symm.trans hkey)
      rw [hnode]
      exact ⟨hn.offset_eq, hn.stop_eq⟩
  | inner first last hfirst hlast =>
    obtain ⟨fields', hfields, hlt, hnode⟩ :=
      d.number_last (innerNode d.tree first last children type fields) origin
    refine ⟨hlt, ?_, ?_, ?_, fun name hname => ?_, fun c hc => ?_, fun c hc => ?_, fun he => ?_⟩
    · rw [hnode]
      rfl
    · rw [Tree.children, hnode]
      rfl
    · rw [hnode]
      rfl
    · rw [hnode, Node.field?, hfields name hname]
      rfl
    · obtain rfl := Option.some_inj.mp (hfirst.symm.trans hc)
      rw [hnode]
      rfl
    · obtain rfl := Option.some_inj.mp (hlast.symm.trans hc)
      rw [hnode]
      rfl
    · simp [he] at hfirst

/-- The draft in which the parts of a node are made. -/
def Scope.entered (scope : Scope) (d : Draft) : Draft :=
  match scope with
  | .shared => d
  | .own _ => d.enter

theorem Scope.extends_entered (scope : Scope) (d : Draft) : d.Extends (scope.entered d) := by
  cases scope with
  | shared => exact .refl d
  | own => exact .of_eq rfl rfl rfl

/-- A node is made over the children that its steps gathered, and no other draft comes in between. -/
theorem Plan.of_build_node {scope : Scope} {head : Head} {steps : List Step} {label : String}
    (h : (Plan.node scope head none steps).build set label d = .ok x d') :
    ∃ made f graph d₁, runSteps set steps [] ⟨scope.entered d, #[]⟩ = .ok made f ∧
      f.draft.Extends d₁ ∧ d₁.tree = f.draft.tree ∧
      NodeMade set d₁ head.origin head.type
        (fieldValues d₁ ⟨label, made, f.children.toList, graph, none⟩ head.fields)
        f.children.toList x d' := by
  have hyields : Yields ((Plan.node scope head none steps).build set label) d fun x d' =>
      ∃ made f graph d₁, runSteps set steps [] ⟨scope.entered d, #[]⟩ = .ok made f ∧
        f.draft.Extends d₁ ∧ d₁.tree = f.draft.tree ∧
        NodeMade set d₁ head.origin head.type
          (fieldValues d₁ ⟨label, made, f.children.toList, graph, none⟩ head.fields)
          f.children.toList x d' := by
    rw [Plan.build]
    have henter : Yields (Build.enterScope scope) d fun _ d₀ => d₀ = scope.entered d := by
      cases scope <;> rintro _ _ ⟨⟩ <;> rfl
    have hleave (d : Draft) : Yields (Build.leaveScope scope) d fun _ d₁ => d₁.tree = d.tree := by
      cases scope with
      | shared => exact .pure rfl
      | own => exact .bind (by rintro _ _ ⟨⟩; exact .pure rfl)
    refine .bind (henter.mono ?_)
    rintro - _ rfl
    refine .bind (Fill.gather_yields fun made f hrun => ?_)
    refine .bind ((Build.leaveScope_extends.and (hleave _)).mono fun graph d₁ ⟨hd₁, htree⟩ => ?_)
    refine .bind ((show Yields (Build.head set _ head _) d₁ _ from
      .bind (.get Build.node_yields)).mono fun core d₂ hmade => .pure ?_)
    exact ⟨made, f, graph, d₁, hrun, hd₁, htree, hmade⟩
  exact hyields x d' h

/-- A table of entries with different names has each of them. -/
theorem Fields.get?_ofList {entries : List (String × FieldValue)} {name : String} {v : FieldValue}
    (hnodup : (entries.map (·.1)).Nodup) (h : (name, v) ∈ entries) :
    (ofList entries).get? name = some v := by
  induction entries using List.reverseRecOn with
  | nil => cases h
  | append_singleton entries e ih =>
    have hlast : ofList (entries ++ [e]) = (ofList entries).insert e.1 e.2 := List.foldl_append
    rw [List.map_append, List.nodup_append] at hnodup
    obtain ⟨hinit, -, hne⟩ := hnodup
    rw [hlast, get?_insert]
    rcases List.mem_append.mp h with h | h
    · rw [if_neg (hne name (List.mem_map_of_mem h) e.1 (by simp)), ih hinit h]
    · obtain rfl := List.mem_singleton.mp h
      rw [if_pos rfl]

/-- A planned node was made between two drafts, the children of its parts before the draft `d₁`. -/
structure Draft.Planned (set : Setting) (d : Draft) (head : Head) (steps : List Step) (made : Made)
    (d₁ : Draft) (i : NodeId) (d' : Draft) : Prop where
  extended : d.Extends d₁
  extends_final : d₁.Extends d'
  parts : PartsMade set d (partsOfSteps steps) made d₁
  spaced : Spaced (d.GapBetween set d₁) made.nodes (d'.tree.children i)
  children_lt : ∀ c ∈ d'.tree.children i, c < d₁.tree.size
  lt_size : i < d'.tree.size
  type_eq : (d'.tree.node i).type = head.type
  visible : (d'.tree.node i).isVisible = true
  fields : ∃ label graph, ∀ name ≠ Node.flowIdName, (d'.tree.node i).field? name =
    (fieldValues d₁ ⟨label, made, d'.tree.children i, graph, none⟩ head.fields).get? name
  offset_eq : ∀ c ∈ made.nodes.head?, (d'.tree.node i).offset = (d₁.tree.node c).offset
  stop_eq : ∀ c ∈ made.nodes.getLast?, (d'.tree.node i).stop = (d₁.tree.node c).stop
  span_eq : made.nodes = [] → ∀ key ∈ head.origin,
    (d'.tree.node i).offset = key.start.toNat ∧ (d'.tree.node i).stop = key.stop.toNat

theorem Plan.planned_of_build {scope : Scope} {head : Head} {steps : List Step} {label : String}
    (h : (Plan.node scope head none steps).build set label d = .ok (some i) d')
    (hsteps : ∀ s ∈ steps, s.IsTogether) (hd : d.HasComments) :
    ∃ made d₁, d.Planned set head steps made d₁ i d' := by
  obtain ⟨made, f, graph, d₁, hrun, hd₁, htree, hnode⟩ := Plan.of_build_node h
  have henter := scope.extends_entered d
  obtain ⟨new, hnew, hparts, hlaid⟩ :=
    runSteps_laid steps hsteps (.empty _) (henter.hasComments hd) _ _ hrun
  obtain rfl : made = new := hnew
  have hstands := hnode.stands
  refine ⟨made, d₁, henter.trans (hlaid.extended.trans hd₁), hnode.extends.toExtends,
    (hparts.later hd₁).start henter, ?_, ?_, hstands.lt_size, hstands.type_eq, hstands.visible,
    ⟨label, graph, ?_⟩, ?_, ?_, ?_⟩
  · rw [hstands.children_eq]
    exact hlaid.spaced.mono fun _ _ _ hgap => (hgap.start henter).later hd₁
  · rw [hstands.children_eq, htree]
    exact hlaid.hasChildren
  · rw [hstands.children_eq]
    exact hstands.field?_eq
  · rw [← hlaid.spaced.head?_eq]
    exact hstands.offset_eq
  · rw [← hlaid.spaced.getLast?_eq]
    exact hstands.stop_eq
  · rw [← hlaid.spaced.eq_nil_iff]
    exact hstands.span_eq

namespace Draft.Planned

variable {head : Head} {steps : List Step} {made : Made}

theorem start (hd : d.Extends d₂) (h : d₂.Planned set head steps made d₁ i d') :
    d.Planned set head steps made d₁ i d' :=
  { h with
    extended := hd.trans h.extended
    parts := h.parts.start hd
    spaced := h.spaced.mono fun _ _ _ hgap => hgap.start hd }

theorem later (h : d.Planned set head steps made d₁ i d') (hd : d'.Extends d'') :
    d.Planned set head steps made d₁ i d'' := by
  obtain ⟨hextended, hfinal, hparts, hspaced, hchildren, hlt, htype, hvisible, hfields, hoffset, hstop,
    hspan⟩ := h
  rw [Tree.children, ← hd.node_eq hlt] at hspaced hchildren hfields
  rw [← hd.node_eq hlt] at htype hvisible hoffset hstop hspan
  exact ⟨hextended, hfinal.trans hd, hparts, hspaced, hchildren, hlt.trans_le hd.size_le, htype, hvisible,
    hfields, hoffset, hstop, hspan⟩

theorem parts_final (h : d.Planned set head steps made d₁ i d') :
    PartsMade set d (partsOfSteps steps) made d' := h.parts.later h.extends_final

theorem spaced_final (h : d.Planned set head steps made d₁ i d') :
    Spaced (d.GapBetween set d') made.nodes (d'.tree.children i) :=
  h.spaced.mono fun _ _ _ hgap => hgap.later h.extends_final

/-- The node starts where the first node of its parts does. -/
theorem offset_final (h : d.Planned set head steps made d₁ i d') :
    ∀ c ∈ made.nodes.head?, (d'.tree.node i).offset = (d'.tree.node c).offset := by
  intro c hc
  have hmem : c ∈ d'.tree.children i := List.mem_of_head? (h.spaced.head?_eq.trans hc)
  rw [h.offset_eq c hc, h.extends_final.node_eq (h.children_lt c hmem)]

/-- The node stops where the last node of its parts does. -/
theorem stop_final (h : d.Planned set head steps made d₁ i d') :
    ∀ c ∈ made.nodes.getLast?, (d'.tree.node i).stop = (d'.tree.node c).stop := by
  intro c hc
  have hmem : c ∈ d'.tree.children i := List.mem_of_getLast? (h.spaced.getLast?_eq.trans hc)
  rw [h.stop_eq c hc, h.extends_final.node_eq (h.children_lt c hmem)]

/-- A field of the node holds what was planned. -/
theorem field?_eq (h : d.Planned set head steps made d₁ i d') {name : String} {p : FieldPlan}
    (hnodup : (head.fields.map (·.1)).Nodup) (hmem : (name, p) ∈ head.fields)
    (hname : name ≠ Node.flowIdName) : ∃ label graph, (d'.tree.node i).field? name =
      some (fieldValue d₁ ⟨label, made, d'.tree.children i, graph, none⟩ p) := by
  obtain ⟨label, graph, hfields⟩ := h.fields
  refine ⟨label, graph, (hfields name hname).trans (Fields.get?_ofList ?_ ?_)⟩
  · rwa [List.map_map]
  · exact List.mem_map_of_mem (f := fun e => (e.1, fieldValue d₁ _ e.2)) hmem

end Draft.Planned

/-- The node of a plan that was carried out. -/
theorem Plan.Built.planned {scope : Scope} {head : Head} {steps : List Step}
    (h : (Plan.node scope head none steps).Built set d (some i) d')
    (hsteps : ∀ s ∈ steps, s.IsTogether) (hd : d.HasComments) :
    ∃ made d₁, d.Planned set head steps made d₁ i d' := by
  obtain ⟨label, d₁, d₂, hd₁, hbuild, hd₂⟩ := h
  obtain ⟨made, d₃, hplanned⟩ := planned_of_build hbuild hsteps (hd₁.hasComments hd)
  exact ⟨made, d₃, (hplanned.later hd₂).start hd₁⟩

end LosslessGo
