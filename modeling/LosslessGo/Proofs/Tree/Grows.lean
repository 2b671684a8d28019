import Mathlib.Logic.Relation
import LosslessGo.Tree.Basic

/-!
# Trees that grow

* `Tree.Grows t t'`: `t'` has the nodes of `t` as they were, and maybe more.
* `Tree.Below t i j`: node `j` is reached from node `i` through children.
* `Tree.Under t i j`: node `j` is strictly below node `i`.
-/

namespace LosslessGo.Tree

variable {t t' t'' : Tree} {i j : NodeId} {n : Node} {f : Node → Node}

@[simp] theorem size_empty : empty.size = 0 := rfl

@[simp] theorem size_push : (t.push n).size = t.size + 1 := by
  simp [push, size]

@[simp] theorem size_modify : (t.modify i f).size = t.size := by
  simp [modify, size]

@[simp] theorem node_push_size : (t.push n).node t.size = n := by
  simp [push, node, size, Array.getD_eq_getD_getElem?]

theorem node_push_of_lt (h : i < t.size) : (t.push n).node i = t.node i := by
  have : i < t.nodes.size := h
  simp [push, node, Array.getD_eq_getD_getElem?, Array.getElem?_push, Nat.ne_of_lt this]

theorem node_modify_self (h : i < t.size) : (t.modify i f).node i = f (t.node i) := by
  have : i < t.nodes.size := h
  simp [modify, node, Array.getD_eq_getD_getElem?, Array.getElem_modify, this]

theorem node_modify_of_ne (h : i ≠ j) : (t.modify i f).node j = t.node j := by
  simp [modify, node, Array.getD_eq_getD_getElem?, Array.getElem?_modify, h]

/-- The nodes of `t` stand in `t'` as they were. -/
structure Grows (t t' : Tree) : Prop where
  size_le : t.size ≤ t'.size
  node_eq : ∀ i < t.size, t'.node i = t.node i

namespace Grows

theorem refl (t : Tree) : Grows t t := ⟨Nat.le_refl _, fun _ _ => rfl⟩

theorem trans (h : Grows t t') (h' : Grows t' t'') : Grows t t'' :=
  ⟨Nat.le_trans h.size_le h'.size_le, fun i hi =>
    (h'.node_eq i (Nat.lt_of_lt_of_le hi h.size_le)).trans (h.node_eq i hi)⟩

theorem push (t : Tree) (n : Node) : Grows t (t.push n) :=
  ⟨by simp, fun _ hi => node_push_of_lt hi⟩

theorem children_eq (h : Grows t t') (hi : i < t.size) : t'.children i = t.children i := by
  simp only [children, h.node_eq i hi]

/-- A node outside of the tree has no children. -/
theorem lt_size_of_child {c : NodeId} (hc : c ∈ t.children i) : i < t.size := by
  refine Nat.lt_of_not_le fun hi => ?_
  have hout : t.nodes.size ≤ i := hi
  rw [children, node, Array.getD_eq_getD_getElem?, Array.getElem?_eq_none hout] at hc
  cases hc

theorem mem_children (h : Grows t t') {c : NodeId} (hc : c ∈ t.children i) : c ∈ t'.children i := by
  rw [h.children_eq (lt_size_of_child hc)]
  exact hc

end Grows

/-- A change to the node that was added last is a change to what was added. -/
theorem modify_push (t : Tree) (n : Node) (f : Node → Node) :
    (t.push n).modify t.size f = t.push (f n) := by
  simp only [push, modify, size, Tree.mk.injEq]
  apply Array.ext
  · simp
  intro k hk hk'
  rw [Array.getElem_modify]
  by_cases h : k < t.nodes.size
  · simp [Array.getElem_push, h, Nat.ne_of_gt h]
  · obtain rfl : k = t.nodes.size := by simp at hk'; omega
    simp

/-- Node `j` is reached from node `i` through children. -/
def Below (t : Tree) : NodeId → NodeId → Prop := Relation.ReflTransGen fun i c => c ∈ t.children i

namespace Below

theorem refl (t : Tree) (i : NodeId) : t.Below i i := Relation.ReflTransGen.refl

theorem head {c : NodeId} (hc : c ∈ t.children i) (h : t.Below c j) : t.Below i j :=
  Relation.ReflTransGen.head hc h

theorem child {c : NodeId} (h : t.Below i j) (hc : c ∈ t.children j) : t.Below i c :=
  Relation.ReflTransGen.tail h hc

/-- A node below `i` is `i` itself or below a child. -/
theorem cases_child (h : t.Below i j) : j = i ∨ ∃ c ∈ t.children i, t.Below c j := by
  rcases Relation.ReflTransGen.cases_head h with rfl | ⟨c, hc, h⟩
  · exact .inl rfl
  · exact .inr ⟨c, hc, h⟩

theorem grows (h : t.Below i j) (hg : t.Grows t') : t'.Below i j :=
  Relation.ReflTransGen.mono (fun _ _ hc => hg.mem_children hc) _ _ h

/-- Nothing leads out of a set of nodes that has their children. -/
theorem within {P : NodeId → Prop} (h : t.Below i j) (hP : ∀ k, P k → ∀ c ∈ t.children k, P c)
    (hi : P i) : P j := by
  unfold Below at h
  induction h with
  | refl => exact hi
  | tail _ hc ih => exact hP _ ih _ hc

end Below

/-- Node `j` is below a child of node `i`. -/
def Under (t : Tree) (i j : NodeId) : Prop := ∃ c ∈ t.children i, t.Below c j

theorem Under.grows (h : t.Under i j) (hg : t.Grows t') : t'.Under i j := by
  obtain ⟨c, hc, h⟩ := h
  exact ⟨c, hg.mem_children hc, h.grows hg⟩

end LosslessGo.Tree
