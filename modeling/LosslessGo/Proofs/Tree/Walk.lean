import Mathlib.Data.List.Flatten
import Mathlib.Data.List.Perm.Subperm
import Mathlib.Order.Nat
import LosslessGo.Proofs.Tree.Grows
import LosslessGo.Tree.Walk

/-!
# What a walk meets

* `Tree.preorder_eq_walk`: the walk with a stack meets nodes in the order of `Tree.walk`.
* `Tree.Descends`: children are older than their parent. Then a walk meets the nodes below its root
  (`Descends.mem_walk`), all but the root as children of others (`Descends.walk_perm`).
* `Tree.later`: the nodes of a walk without the first nodes of the tree.
-/

namespace LosslessGo.Tree

open scoped List

variable {t t' : Tree} {i j : NodeId} {k : Nat}

/-! ## The order of a walk -/

theorem visit_toList (t : Tree) (stack : List NodeId) (met : Array NodeId) :
    (visit t stack met).toList = met.toList ++ stack.flatMap t.walk := by
  fun_induction visit t stack met with
  | case1 met => simp
  | case2 met i rest ih =>
    rw [ih, List.flatMap_cons, walk_eq t i]
    simp

theorem preorder_eq_walk (t : Tree) (i : NodeId) : t.preorder i = t.walk i := by
  simp [preorder, visit_toList]

theorem le_of_mem_walk (h : j ∈ t.walk i) : j ≤ i := by
  induction i using Nat.strongRecOn with
  | ind i ih =>
    rw [walk_eq, List.mem_cons, List.mem_flatMap] at h
    rcases h with rfl | ⟨c, hc, hj⟩
    · exact Nat.le_refl j
    · have hlt := lt_of_mem_older hc
      exact (ih c hlt hj).trans hlt.le

theorem self_mem_walk (t : Tree) (i : NodeId) : i ∈ t.walk i := by
  rw [walk_eq]
  exact List.mem_cons_self

/-- Nodes that are added change no walk from an old node. -/
theorem Grows.walk_eq (hg : t.Grows t') (hi : i < t.size) : t'.walk i = t.walk i := by
  induction i using Nat.strongRecOn with
  | ind i ih =>
    have holder : t'.older i = t.older i := by rw [older, older, hg.children_eq hi]
    rw [Tree.walk_eq, Tree.walk_eq, holder]
    refine congrArg (i :: ·) (List.flatMap_congr fun c hc => ?_)
    have hlt := lt_of_mem_older hc
    exact ih c hlt (hlt.trans hi)

/-! ## Trees of older children -/

/-- Children are older than their parent. -/
def Descends (t : Tree) : Prop := ∀ i, ∀ c ∈ t.children i, c < i

namespace Descends

variable (h : t.Descends)

include h

theorem walk_eq (i : NodeId) : t.walk i = i :: (t.children i).flatMap t.walk := by
  have holder : t.older i = t.children i := List.filter_eq_self.mpr fun c hc => by simp [h i c hc]
  rw [Tree.walk_eq, holder]

theorem mem_walk : j ∈ t.walk i ↔ t.Below i j := by
  constructor
  · induction i using Nat.strongRecOn with
    | ind i ih =>
      intro hj
      rw [h.walk_eq, List.mem_cons, List.mem_flatMap] at hj
      rcases hj with rfl | ⟨c, hc, hj⟩
      · exact .refl t j
      · exact .head hc (ih c (h i c hc) hj)
  · intro hj
    induction i using Nat.strongRecOn with
    | ind i ih =>
      rw [h.walk_eq, List.mem_cons, List.mem_flatMap]
      rcases hj.cases_child with rfl | ⟨c, hc, hj⟩
      · exact .inl rfl
      · exact .inr ⟨c, hc, ih c (h i c hc) hj⟩

theorem le_of_below (hj : t.Below i j) : j ≤ i := le_of_mem_walk (h.mem_walk.mpr hj)

theorem lt_of_under (hj : t.Under i j) : j < i := by
  obtain ⟨c, hc, hj⟩ := hj
  exact (h.le_of_below hj).trans_lt (h i c hc)

/-- A walk meets its root, and otherwise the children of the nodes that it meets. -/
theorem walk_perm (i : NodeId) : (t.walk i).Perm (i :: (t.walk i).flatMap t.children) := by
  induction i using Nat.strongRecOn with
  | ind i ih =>
    have hbelow : ((t.children i).flatMap t.walk).Perm
        (t.children i ++ ((t.children i).flatMap t.walk).flatMap t.children) := by
      calc ((t.children i).flatMap t.walk)
        _ ~ (t.children i).flatMap fun c => c :: (t.walk c).flatMap t.children :=
          List.Perm.flatMap_left _ fun c hc => ih c (h i c hc)
        _ ~ (t.children i).flatMap (fun c => [c]) ++
            (t.children i).flatMap (fun c => (t.walk c).flatMap t.children) :=
          (List.flatMap_append_perm _ (fun c => [c]) _).symm
        _ = t.children i ++ ((t.children i).flatMap t.walk).flatMap t.children := by
          rw [List.flatMap_singleton', List.flatMap_assoc]
    rw [h.walk_eq i, List.flatMap_cons]
    exact hbelow.cons i

end Descends

/-! ## Walks without the first nodes -/

/-- The nodes below `i`, without the first `k` nodes of the tree. -/
def later (t : Tree) (k : Nat) (i : NodeId) : List NodeId := (t.walk i).filter (k ≤ ·)

theorem mem_later : j ∈ t.later k i ↔ j ∈ t.walk i ∧ k ≤ j := by
  simp [later]

theorem self_mem_later (hi : k ≤ i) : i ∈ t.later k i := mem_later.mpr ⟨self_mem_walk t i, hi⟩

/-- Each of the later ones of some nodes is below itself. -/
theorem filter_sublist_later (t : Tree) (is : List NodeId) :
    (is.filter (k ≤ ·)).Sublist (is.flatMap (t.later k)) := by
  induction is with
  | nil => exact .refl _
  | cons i is ih =>
    rw [List.filter_cons, List.flatMap_cons]
    split
    · have hi : [i].Sublist (t.later k i) :=
        List.singleton_sublist.mpr (self_mem_later (of_decide_eq_true ‹_›))
      exact hi.append ih
    · exact ih.trans (List.sublist_append_right _ _)

theorem later_of_lt (hi : i < k) : t.later k i = [] := by
  refine List.filter_eq_nil_iff.mpr fun j hj => ?_
  have hle := (le_of_mem_walk hj).trans_lt hi
  simpa using hle

theorem Grows.later_eq (hg : t.Grows t') (hi : i < t.size) : t'.later k i = t.later k i := by
  rw [later, later, hg.walk_eq hi]

theorem Grows.flatMap_later (hg : t.Grows t') {is : List NodeId} (his : ∀ i ∈ is, i < t.size) :
    is.flatMap (t'.later k) = is.flatMap (t.later k) :=
  List.flatMap_congr fun i hi => hg.later_eq (his i hi)

theorem Descends.later_eq (h : t.Descends) (hi : k ≤ i) :
    t.later k i = i :: (t.children i).flatMap (t.later k) := by
  rw [later, h.walk_eq, List.filter_cons_of_pos (by simpa using hi), List.filter_flatMap]
  rfl

/-- The nodes below the children are below the parent. -/
theorem Descends.children_later_sublist (h : t.Descends) (i : NodeId) :
    ((t.children i).flatMap (t.later k)).Sublist (t.later k i) := by
  have hfilter : (t.children i).flatMap (t.later k) =
      ((t.children i).flatMap t.walk).filter (k ≤ ·) := by
    rw [List.filter_flatMap]
    rfl
  rw [hfilter, later, h.walk_eq i]
  exact (List.sublist_cons_self i _).filter _

end LosslessGo.Tree
