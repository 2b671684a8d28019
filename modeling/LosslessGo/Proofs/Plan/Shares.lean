import Mathlib.Data.List.ReduceOption
import LosslessGo.Proofs.Draft.Owns
import LosslessGo.Proofs.Plan.Regular

/-!
# What fields take of the nodes below

A field of a planned node takes nodes that are below the parts with a tag, or below any child
(`FieldPlan.shares`). Where no part is shared out twice, all fields together take no node twice.

* `Outcome.Within`: what a node was made of is below its children.
* `Outcome.Within.refs_subperm`: regular fields share out what is below the children.
* `Outcome.Within.refs_visible`: they take visible nodes only.
-/

namespace LosslessGo

open scoped List

variable {d : Draft} {o : Outcome} {k : Nat} {children : List NodeId} {made : Made} {tag : String}

/-! ## Parts by tag -/

namespace Made

/-- The nodes made for all parts. -/
def nodes (m : Made) : List NodeId := (m.map (·.2)).reduceOption

theorem nodes_cons (e : String × Option NodeId) : nodes (e :: made) = e.2.toList ++ nodes made := by
  obtain ⟨t, x⟩ := e
  cases x <;> rfl

theorem nodes_singleton (e : String × Option NodeId) : nodes [e] = e.2.toList := by
  rw [nodes_cons]
  exact List.append_nil _

theorem nodes_append (new : Made) : nodes (made ++ new) = nodes made ++ nodes new := by
  rw [nodes, List.map_append, List.reduceOption_append]
  rfl

theorem mem_nodes {i : NodeId} : i ∈ nodes made ↔ ∃ e ∈ made, i ∈ e.2 := by
  rw [nodes, List.reduceOption_mem_iff, List.mem_map]
  rfl

theorem parts_cons (e : String × Option NodeId) :
    parts (e :: made) tag = (if e.1 = tag then e.2.toList else []) ++ parts made tag := by
  obtain ⟨t, x⟩ := e
  by_cases h : t = tag
  · cases x <;> simp [parts, h]
  · simp [parts, h]

theorem part_sublist : (part made tag).toList <+ parts made tag := by
  induction made with
  | nil => exact .refl _
  | cons e made ih =>
    obtain ⟨t, x⟩ := e
    rw [parts_cons, part, List.lookup_cons]
    by_cases h : tag = t
    · subst h
      simp
    · rw [beq_eq_false_iff_ne.mpr h, if_neg (Ne.symm h)]
      exact ih

theorem exists_of_mem_parts {i : NodeId} (h : i ∈ parts made tag) :
    ∃ e ∈ made, e.1 = tag ∧ i ∈ e.2 := by
  obtain ⟨⟨t, x⟩, he, hi⟩ := List.mem_filterMap.mp h
  simp only at hi
  split at hi
  · exact ⟨(t, x), he, ‹_›, hi⟩
  · cases hi

/-- A list that is taken for one of several tags is taken once. -/
theorem one_of_tags {tags : List String} (h : tags.Nodup) (t : String) (xs : List NodeId) :
    (tags.flatMap fun tag => if t = tag then xs else []) <+ xs := by
  induction tags with
  | nil => exact List.nil_sublist xs
  | cons tag tags ih =>
    obtain ⟨hnot, hnodup⟩ := List.nodup_cons.mp h
    rw [List.flatMap_cons]
    by_cases htag : t = tag
    · subst htag
      have hrest : (tags.flatMap fun tag => if t = tag then xs else []) = [] :=
        List.flatMap_eq_nil_iff.mpr fun tag htag => if_neg (ne_of_mem_of_not_mem htag hnot).symm
      simp [hrest]
    · rw [if_neg htag]
      exact ih hnodup

/-- No part has two tags. -/
theorem parts_subperm {tags : List String} (h : tags.Nodup) :
    tags.flatMap (parts made) <+~ nodes made := by
  induction made with
  | nil =>
    have hnil : tags.flatMap (parts []) = [] := List.flatMap_eq_nil_iff.mpr fun _ _ => rfl
    rw [hnil]
    exact List.nil_subperm
  | cons e made ih =>
    have hsplit : tags.flatMap (parts (e :: made)) ~
        (tags.flatMap fun tag => if e.1 = tag then e.2.toList else []) ++
          tags.flatMap (parts made) := by
      rw [List.flatMap_congr fun tag _ => parts_cons e]
      exact (List.flatMap_append_perm _ _ _).symm
    rw [nodes_cons]
    exact hsplit.subperm.trans ((one_of_tags h e.1 _).subperm.append ih)

end Made

/-! ## Nodes below -/

/-- Some of the children of a node lead to nodes below it. -/
theorem Tree.Descends.later_sublist {t : Tree} (h : t.Descends) {i : NodeId} {cs : List NodeId}
    (hcs : cs <+ t.children i) : cs.flatMap (t.later k) <+ t.later k i :=
  (hcs.flatMap _).trans (h.children_later_sublist i)

theorem evens_sublist {α : Type} (xs : List α) : evens xs <+ xs := by
  fun_induction evens xs with
  | case1 => exact .refl _
  | case2 x => exact .refl _
  | case3 x y xs ih => exact (ih.cons y).cons_cons x

theorem between_sublist {α : Type} (xs : List α) : between xs <+ xs :=
  (List.dropLast_sublist _).trans (List.tail_sublist _)

theorem Tree.visible_sublist (t : Tree) (is : List NodeId) : t.visible is <+ is := List.filter_sublist

theorem Tree.mem_visible {t : Tree} {is : List NodeId} {i : NodeId} (h : i ∈ t.visible is) :
    (t.node i).isVisible = true := (List.mem_filter.mp h).2

/-- The parameters in a list are below it. -/
theorem parametersOf_sublist (h : d.tree.Descends) (i : NodeId) :
    (parametersOf d i).flatMap (d.tree.later k) <+ d.tree.later k i := by
  rw [parametersOf, List.flatMap_assoc]
  refine List.Sublist.trans (.flatMap_right _ fun c _ => ?_)
    (h.later_sublist ((between_sublist _).trans (d.tree.visible_sublist _)))
  exact h.later_sublist ((evens_sublist _).trans (d.tree.visible_sublist _))

/-! ## Fields -/

theorem eq_map_some {α : Type} {xs : List (Option α)} (h : none ∉ xs) :
    ∃ ys : List α, xs = ys.map some := by
  induction xs with
  | nil => exact ⟨[], rfl⟩
  | cons x xs ih =>
    rw [List.mem_cons, not_or] at h
    obtain ⟨hx, hxs⟩ := h
    obtain ⟨y, rfl⟩ := Option.ne_none_iff_exists'.mp (Ne.symm hx)
    obtain ⟨ys, rfl⟩ := ih hxs
    exact ⟨y :: ys, rfl⟩

/-- What a node was made of is below `children`. Only the end of the file is hidden among its parts. -/
structure Outcome.Within (o : Outcome) (d : Draft) (k : Nat) (children : List NodeId) : Prop where
  made : o.made.nodes.flatMap (d.tree.later k) <+~ children.flatMap (d.tree.later k)
  own : o.children.flatMap (d.tree.later k) <+~ children.flatMap (d.tree.later k)
  core : o.core.toList.flatMap (d.tree.later k) <+~ children.flatMap (d.tree.later k)
  shown : ∀ e ∈ o.made, ∀ i ∈ e.2, (d.tree.node i).isVisible = true ∨ e.1 = endTag
  core_visible : ∀ i ∈ o.core, (d.tree.node i).isVisible = true

namespace Outcome

/-- What there is to share out. -/
def share (o : Outcome) (d : Draft) (k : Nat) (children : List NodeId) : Option String → List NodeId
  | none => children.flatMap (d.tree.later k)
  | some tag => (o.made.parts tag).flatMap (d.tree.later k)

namespace Within

variable (h : o.Within d k children) (hd : d.tree.Descends)

include h hd

theorem source_subperm (s : Source) :
    (sourceNodes d o s).flatMap (d.tree.later k) <+~ o.share d k children s.share := by
  cases s with
  | made tag => exact .refl _
  | own => exact ((d.tree.visible_sublist _).flatMap _).subperm.trans h.own
  | below tag =>
    refine .trans (List.Sublist.subperm ?_) ((Made.part_sublist.flatMap _).subperm)
    rw [sourceNodes]
    cases o.made.part tag with
    | none => exact .refl _
    | some i => simpa using hd.later_sublist (d.tree.visible_sublist _)

/-- A field takes what is shared out to it. -/
theorem field_subperm {p : FieldPlan} (hp : p.GivesNoNode) :
    (fieldValue d o p).refs.flatMap (d.tree.later k) <+~
      p.shares.flatMap (o.share d k children) := by
  have hpart {tag : String} {f : NodeId → List NodeId}
      (hf : ∀ i, (f i).flatMap (d.tree.later k) <+ d.tree.later k i) :
      (((o.made.part tag).map f).getD []).flatMap (d.tree.later k) <+~
        [some tag].flatMap (o.share d k children) := by
    rw [List.flatMap_singleton]
    refine .trans (List.Sublist.subperm ?_) ((Made.part_sublist.flatMap _).subperm)
    cases o.made.part tag with
    | none => exact .refl _
    | some i => simpa using hf i
  cases p with
  | given v =>
    rw [show (fieldValue d o (.given v)).refs = [] from hp]
    exact List.nil_subperm
  | naming n =>
    simp only [fieldValue, nativeKindValue]
    split <;> exact List.nil_subperm
  | part tag =>
    rw [FieldPlan.shares, List.flatMap_singleton]
    exact (Made.part_sublist.flatMap _).subperm
  | nodes sources =>
    rw [FieldPlan.shares, List.flatMap_map]
    show (sources.flatMap (sourceNodes d o)).flatMap _ <+~ _
    rw [List.flatMap_assoc]
    exact subperm_flatMap_left fun s _ => h.source_subperm hd s
  | interior =>
    rw [FieldPlan.shares, List.flatMap_singleton]
    exact (((d.tree.visible_sublist _).trans (between_sublist _)).flatMap _).subperm.trans h.own
  | cases tag =>
    rw [FieldPlan.shares, List.flatMap_singleton]
    exact (List.filter_sublist.flatMap _).subperm.trans (h.source_subperm hd (.below tag))
  | parameters tag => exact hpart (parametersOf_sublist hd)
  | keywordBefore tag =>
    simp only [fieldValue]
    split <;> exact List.nil_subperm
  | core =>
    rw [FieldPlan.shares, List.flatMap_singleton]
    exact h.core
  | range tag => exact List.nil_subperm
  | graph => exact List.nil_subperm

omit hd in
/-- Fields that are apart take no node twice. -/
theorem shares_subperm {shares : List (Option String)} (hapart : Apart shares) :
    shares.flatMap (o.share d k children) <+~ children.flatMap (d.tree.later k) := by
  rcases hapart with rfl | ⟨hnodup, hnone, -⟩
  · rw [List.flatMap_singleton]
    exact .refl _
  · obtain ⟨tags, rfl⟩ := eq_map_some hnone
    rw [List.flatMap_map]
    show tags.flatMap (fun tag => (o.made.parts tag).flatMap (d.tree.later k)) <+~ _
    rw [← List.flatMap_assoc]
    exact (subperm_flatMap (Made.parts_subperm (hnodup.of_map _)) _).trans h.made

/-- Regular fields share out what is below the children. -/
theorem refs_subperm {fields : List (String × FieldPlan)} (hfields : FieldsRegular fields) :
    (fieldValues d o fields).refs.flatMap (d.tree.later k) <+~
      children.flatMap (d.tree.later k) := by
  refine (subperm_flatMap Fields.refs_ofList _).trans (.trans ?_ (h.shares_subperm hfields.2))
  rw [List.flatMap_map, List.flatMap_assoc, List.flatMap_assoc]
  exact subperm_flatMap_left fun e he => h.field_subperm hd (hfields.1 e he).2

omit hd

theorem part_visible {tag : String} (htag : tag ≠ endTag) {i : NodeId} (hi : i ∈ o.made.parts tag) :
    (d.tree.node i).isVisible = true := by
  obtain ⟨e, he, rfl, hie⟩ := Made.exists_of_mem_parts hi
  exact (h.shown e he i hie).resolve_right htag

/-- A field takes visible nodes. -/
theorem field_visible {p : FieldPlan} (hp : p.GivesNoNode) (hend : some endTag ∉ p.shares)
    {i : NodeId} (hi : i ∈ (fieldValue d o p).refs) : (d.tree.node i).isVisible = true := by
  have hbelow {tag : String} (hi : i ∈ sourceNodes d o (.below tag)) :
      (d.tree.node i).isVisible = true := by
    rw [sourceNodes] at hi
    cases hpart : o.made.part tag with
    | none => simp [hpart] at hi
    | some j =>
      rw [hpart] at hi
      exact Tree.mem_visible hi
  cases p with
  | given v =>
    rw [show (fieldValue d o (.given v)).refs = [] from hp] at hi
    cases hi
  | naming n =>
    simp only [fieldValue, nativeKindValue] at hi
    split at hi <;> cases hi
  | part tag =>
    refine h.part_visible (fun htag => hend ?_) (Made.part_sublist.subset hi)
    simp [htag]
  | nodes sources =>
    obtain ⟨s, hs, hi⟩ := List.mem_flatMap.mp hi
    cases s with
    | made tag =>
      refine h.part_visible (fun htag => hend ?_) hi
      exact List.mem_map.mpr ⟨_, hs, congrArg some htag⟩
    | own => exact Tree.mem_visible hi
    | below tag => exact hbelow hi
  | interior => exact Tree.mem_visible hi
  | cases tag => exact hbelow (List.mem_filter.mp hi).1
  | parameters tag =>
    simp only [fieldValue, FieldValue.refs] at hi
    cases hpart : o.made.part tag with
    | none => simp [hpart] at hi
    | some j =>
      rw [hpart] at hi
      obtain ⟨c, -, hi⟩ := List.mem_flatMap.mp hi
      exact Tree.mem_visible ((evens_sublist _).subset hi)
  | keywordBefore tag =>
    simp only [fieldValue] at hi
    split at hi <;> cases hi
  | core => exact h.core_visible i (Option.mem_toList.mp hi)
  | range tag => cases hi
  | graph => cases hi

/-- Regular fields take visible nodes. -/
theorem refs_visible {fields : List (String × FieldPlan)} (hfields : FieldsRegular fields)
    {i : NodeId} (hi : i ∈ (fieldValues d o fields).refs) : (d.tree.node i).isVisible = true := by
  obtain ⟨e, he, hi⟩ := List.mem_flatMap.mp hi
  obtain ⟨e', he', rfl⟩ := List.mem_map.mp (Fields.mem_ofList he)
  refine h.field_visible (hfields.1 e' he').2 (fun hend => ?_) hi
  have hmem : some endTag ∈ fields.flatMap (·.2.shares) := List.mem_flatMap.mpr ⟨e', he', hend⟩
  rcases hfields.2 with hall | ⟨-, -, hnot⟩
  · rw [hall] at hmem
    simp at hmem
  · exact hnot hmem

end Within

end Outcome

/-- The fields that a plan fills in have plain names. -/
theorem FieldsRegular.plain {fields : List (String × FieldPlan)} (hfields : FieldsRegular fields) :
    ∀ e ∈ (fieldValues d o fields).entries, IsPlainName e.1 = true := by
  intro e he
  obtain ⟨e', he', rfl⟩ := List.mem_map.mp (Fields.mem_ofList he)
  exact (hfields.1 e' he').1

end LosslessGo
