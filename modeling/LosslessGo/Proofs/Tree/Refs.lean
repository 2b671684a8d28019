import Mathlib.Data.List.Nodup
import Mathlib.Data.List.Pairwise
import LosslessGo.Proofs.Tree.Fields
import LosslessGo.Proofs.Tree.Walk

/-!
# References in fields

Beside its children, a node refers to nodes in its fields. References fit where they share out the
nodes below the children (`Tree.RefsFit`): a node is then reached by one path through fields at most.

* `Fields.refs_ofList`: a table refers to nodes of its entries.
* `Tree.refWalk`: the nodes that are reached through fields, each by a path (`Tree.FieldPath`).
* `Tree.RefsFit.under`: references lead to nodes below.
* `Tree.RefsFit.path_unique`: no node is reached by two paths.
-/

namespace LosslessGo

open scoped List

/-! ## Lists that are part of others -/

theorem subperm_flatMap {α β : Type} {xs ys : List α} (h : xs <+~ ys) (f : α → List β) :
    xs.flatMap f <+~ ys.flatMap f := by
  obtain ⟨zs, hperm, hsub⟩ := h
  exact (hperm.flatMap_right f).symm.subperm.trans (hsub.flatMap f).subperm

theorem subperm_flatMap_left {α β : Type} {xs : List α} {f g : α → List β}
    (h : ∀ x ∈ xs, f x <+~ g x) : xs.flatMap f <+~ xs.flatMap g := by
  induction xs with
  | nil => exact .refl _
  | cons x xs ih =>
    obtain ⟨hx, hxs⟩ := List.forall_mem_cons.mp h
    exact hx.append (ih hxs)

/-- An item of a list without repetitions comes from one place. -/
theorem eq_of_nodup_flatMap {α β : Type} {xs : List α} {f : α → List β} (h : (xs.flatMap f).Nodup)
    {a b : α} {c : β} (ha : a ∈ xs) (hb : b ∈ xs) (hca : c ∈ f a) (hcb : c ∈ f b) : a = b := by
  by_contra hne
  have : Std.Symm (Function.onFun List.Disjoint f) := ⟨fun _ _ => List.disjoint_symm⟩
  exact (List.nodup_flatMap.mp h).2.forall ha hb hne hca hcb

/-! ## Tables -/

/-- The nodes that the values refer to, in order. -/
def Fields.refs (fs : Fields) : List NodeId := fs.entries.flatMap (·.2.refs)

/-- The nodes that the fields refer to, in order. -/
def Node.refs (n : Node) : List NodeId := n.fields.refs

namespace Fields

variable {name : String} {v : FieldValue} {entries : List (String × FieldValue)} {fs : Fields}
  {e : String × FieldValue}

theorem refs_insertEntry :
    (insertEntry name v entries).flatMap (·.2.refs) <+~ v.refs ++ entries.flatMap (·.2.refs) := by
  induction entries with
  | nil => exact (List.Perm.refl _).subperm
  | cons e rest ih =>
    unfold insertEntry
    split
    · exact .refl _
    split
    · exact (List.Sublist.append_left (List.sublist_append_right _ _) _).subperm
    · simp only [List.flatMap_cons]
      exact ((List.subperm_append_left _).mpr ih).trans (List.perm_append_comm_assoc _ _ _).subperm

theorem refs_insert : (fs.insert name v).refs <+~ v.refs ++ fs.refs := refs_insertEntry

/-- The later entries come on top of the earlier ones. -/
theorem refs_foldl_insert : (entries.foldl (fun fs e => fs.insert e.1 e.2) fs).refs <+~
    entries.flatMap (·.2.refs) ++ fs.refs := by
  induction entries generalizing fs with
  | nil => exact .refl _
  | cons e rest ih =>
    rw [List.foldl_cons, List.flatMap_cons]
    have hinsert : rest.flatMap (·.2.refs) ++ (fs.insert e.1 e.2).refs <+~
        rest.flatMap (·.2.refs) ++ (e.2.refs ++ fs.refs) :=
      (List.subperm_append_left _).mpr refs_insert
    rw [List.append_assoc]
    exact (ih.trans hinsert).trans (List.perm_append_comm_assoc _ _ _).subperm

theorem refs_ofList : (ofList entries).refs <+~ entries.flatMap (·.2.refs) := by
  have h : (ofList entries).refs <+~ entries.flatMap (·.2.refs) ++ empty.refs := refs_foldl_insert
  rwa [show empty.refs = [] from rfl, List.append_nil] at h

end Fields

namespace Tree

variable {t : Tree} {i j c : NodeId} {k : Nat}

/-! ## Walks through fields -/

/-- The nodes that node `i` refers to and that stand before it. -/
def olderRefs (t : Tree) (i : NodeId) : List NodeId := (t.node i).refs.filter (· < i)

theorem lt_of_mem_olderRefs (h : c ∈ t.olderRefs i) : c < i := by
  simpa using (List.mem_filter.mp h).2

/-- The nodes that fields lead to from node `i`: `i` itself, then those from each reference. -/
def refWalk (t : Tree) (i : NodeId) : List NodeId :=
  i :: (t.olderRefs i).attach.flatMap fun ⟨c, _⟩ => refWalk t c
termination_by i
decreasing_by exact lt_of_mem_olderRefs ‹_›

theorem refWalk_eq (t : Tree) (i : NodeId) :
    t.refWalk i = i :: (t.olderRefs i).flatMap t.refWalk := by
  rw [refWalk]
  simp only [List.flatMap, List.map_attach_eq_pmap, List.pmap_eq_map]

/-- Fields lead from one node to another: each step goes from a node to the one at a place of a
field. -/
inductive FieldPath (t : Tree) : NodeId → List (String × Nat) → NodeId → Prop where
  | here (i : NodeId) : FieldPath t i [] i
  | step {i c j : NodeId} {name : String} {v : FieldValue} {n : Nat} {path : List (String × Nat)} :
    (t.node i).field? name = some v → v.refs[n]? = some c → FieldPath t c path j →
    FieldPath t i ((name, n) :: path) j

theorem mem_refs_of_field? {name : String} {v : FieldValue} (hv : (t.node i).field? name = some v)
    (hc : c ∈ v.refs) : c ∈ (t.node i).refs :=
  List.mem_flatMap.mpr ⟨(name, v), Fields.mem_of_get? hv, hc⟩

/-! ## References that fit -/

/-- Nodes past the first `k` refer to such nodes, and share out what is below their children. -/
structure RefsFit (t : Tree) (k : Nat) : Prop where
  descends : t.Descends
  le_ref : ∀ i, k ≤ i → ∀ c ∈ (t.node i).refs, k ≤ c
  shared : ∀ i, k ≤ i →
    (t.node i).refs.flatMap (t.later k) <+~ (t.children i).flatMap (t.later k)

namespace RefsFit

variable (h : t.RefsFit k)

include h

/-- References lead to nodes below. -/
theorem under (hi : k ≤ i) (hc : c ∈ (t.node i).refs) : t.Under i c := by
  have hmem : c ∈ (t.children i).flatMap (t.later k) :=
    (h.shared i hi).subset (List.mem_flatMap.mpr ⟨c, hc, self_mem_later (h.le_ref i hi c hc)⟩)
  obtain ⟨b, hb, hcb⟩ := List.mem_flatMap.mp hmem
  exact ⟨b, hb, h.descends.mem_walk.mp (mem_later.mp hcb).1⟩

theorem ref_lt (hi : k ≤ i) (hc : c ∈ (t.node i).refs) : c < i :=
  h.descends.lt_of_under (h.under hi hc)

theorem refWalk_eq (hi : k ≤ i) : t.refWalk i = i :: (t.node i).refs.flatMap t.refWalk := by
  have hall : t.olderRefs i = (t.node i).refs :=
    List.filter_eq_self.mpr fun c hc => by simp [h.ref_lt hi hc]
  rw [Tree.refWalk_eq, hall]

/-- Fields lead to no node twice that is not below twice. -/
theorem refWalk_subperm (hi : k ≤ i) : t.refWalk i <+~ t.later k i := by
  induction i using Nat.strongRecOn with
  | ind i ih =>
    have hrefs : (t.node i).refs.flatMap t.refWalk <+~ (t.node i).refs.flatMap (t.later k) :=
      subperm_flatMap_left fun c hc => ih c (h.ref_lt hi hc) (h.le_ref i hi c hc)
    rw [h.refWalk_eq hi, h.descends.later_eq hi, List.subperm_cons]
    exact hrefs.trans (h.shared i hi)

theorem mem_refWalk {path : List (String × Nat)} (hi : k ≤ i) (hp : t.FieldPath i path j) :
    j ∈ t.refWalk i := by
  induction hp with
  | here i =>
    rw [Tree.refWalk_eq]
    exact List.mem_cons_self
  | step hv hn _ ih =>
    have hc := mem_refs_of_field? hv (List.mem_of_getElem? hn)
    rw [h.refWalk_eq hi]
    exact List.mem_cons_of_mem _ (List.mem_flatMap.mpr ⟨_, hc, ih (h.le_ref _ hi _ hc)⟩)

theorem le_of_path {path : List (String × Nat)} (hi : k ≤ i) (hp : t.FieldPath i path j) :
    k ≤ j ∧ j ≤ i := by
  induction hp with
  | here i => exact ⟨hi, Nat.le_refl i⟩
  | step hv hn _ ih =>
    have hc := mem_refs_of_field? hv (List.mem_of_getElem? hn)
    obtain ⟨hkj, hjc⟩ := ih (h.le_ref _ hi _ hc)
    exact ⟨hkj, hjc.trans (h.ref_lt hi hc).le⟩

/-- Steps from one node to nodes that lead to the same node are the same. -/
theorem step_unique {c' : NodeId} {name name' : String} {v v' : FieldValue} {n n' : Nat}
    (hi : k ≤ i) (hnodup : (t.refWalk i).Nodup) (hv : (t.node i).field? name = some v)
    (hn : v.refs[n]? = some c) (hj : j ∈ t.refWalk c) (hv' : (t.node i).field? name' = some v')
    (hn' : v'.refs[n']? = some c') (hj' : j ∈ t.refWalk c') : name = name' ∧ n = n' := by
  have hentries : ((t.node i).fields.entries.flatMap fun e => e.2.refs.flatMap t.refWalk).Nodup := by
    rw [h.refWalk_eq hi, List.nodup_cons] at hnodup
    rw [← List.flatMap_assoc]
    exact hnodup.2
  have hin := List.mem_flatMap.mpr ⟨c, List.mem_of_getElem? hn, hj⟩
  have hin' := List.mem_flatMap.mpr ⟨c', List.mem_of_getElem? hn', hj'⟩
  have hentry := Fields.mem_of_get? hv
  obtain ⟨rfl, rfl⟩ := Prod.mk.inj
    (eq_of_nodup_flatMap hentries hentry (Fields.mem_of_get? hv') hin hin')
  refine ⟨rfl, ?_⟩
  obtain ⟨-, hplaces⟩ := List.nodup_flatMap.mp ((List.nodup_flatMap.mp hentries).1 _ hentry)
  rw [List.pairwise_iff_getElem] at hplaces
  obtain ⟨hlt, rfl⟩ := List.getElem?_eq_some_iff.mp hn
  obtain ⟨hlt', rfl⟩ := List.getElem?_eq_some_iff.mp hn'
  rcases Nat.lt_trichotomy n n' with hnn | rfl | hnn
  · exact absurd hj' (fun hj' => hplaces n n' hlt hlt' hnn hj hj')
  · rfl
  · exact absurd hj (fun hj => hplaces n' n hlt' hlt hnn hj' hj)

/-- No node is reached by two paths. -/
theorem path_unique {p q : List (String × Nat)} (hi : k ≤ i) (hnodup : (t.refWalk i).Nodup)
    (hp : t.FieldPath i p j) (hq : t.FieldPath i q j) : p = q := by
  induction hp generalizing q with
  | here i =>
    cases hq with
    | here => rfl
    | step hv hn hq =>
      have hc := mem_refs_of_field? hv (List.mem_of_getElem? hn)
      have hle := (h.le_of_path (h.le_ref i hi _ hc) hq).2
      exact absurd (h.ref_lt hi hc) (Nat.not_lt_of_le hle)
  | @step i c j name v n path hv hn hp ih =>
    have hc := mem_refs_of_field? hv (List.mem_of_getElem? hn)
    have hk := h.le_ref _ hi _ hc
    cases hq with
    | here =>
      exact absurd (h.ref_lt hi hc) (Nat.not_lt_of_le (h.le_of_path hk hp).2)
    | step hv' hn' hq =>
      have hc' := mem_refs_of_field? hv' (List.mem_of_getElem? hn')
      obtain ⟨rfl, rfl⟩ := h.step_unique hi hnodup hv hn (h.mem_refWalk hk hp) hv' hn'
        (h.mem_refWalk (h.le_ref _ hi _ hc') hq)
      obtain rfl := Option.some.inj (hv.symm.trans hv')
      obtain rfl := Option.some.inj (hn.symm.trans hn')
      have hbelow : ((t.node i).refs.flatMap t.refWalk).Nodup := by
        rw [h.refWalk_eq hi, List.nodup_cons] at hnodup
        exact hnodup.2
      rw [ih hk ((List.nodup_flatMap.mp hbelow).1 _ hc) hq]

end RefsFit

end Tree

end LosslessGo
