import LosslessGo.Tree.Basic

/-!
# Walks through a tree

The nodes below a root, parents first and siblings from left to right. A walk descends only to
older nodes, those at a smaller place than their parent; in a tree that grew by `Tree.push` from
below these are all children.

* `Tree.preorder` walks with a stack of nodes to visit.
* `Tree.walk` states the order by recursion on the tree.
-/

namespace LosslessGo.Tree

/-- The children of a node that stand before it. -/
def older (t : Tree) (i : NodeId) : List NodeId := (t.children i).filter (· < i)

theorem lt_of_mem_older {t : Tree} {i c : NodeId} (h : c ∈ t.older i) : c < i := by
  simpa using (List.mem_filter.mp h).2

/-- The nodes below `i`: `i` itself, then those below each child. -/
def walk (t : Tree) (i : NodeId) : List NodeId :=
  i :: (t.older i).attach.flatMap fun ⟨c, _⟩ => walk t c
termination_by i
decreasing_by exact lt_of_mem_older ‹_›

theorem walk_eq (t : Tree) (i : NodeId) : t.walk i = i :: (t.older i).flatMap t.walk := by
  rw [walk]
  simp only [List.flatMap, List.map_attach_eq_pmap, List.pmap_eq_map]

/-- The nodes met from the nodes on a stack, after those met before. The node on top is taken off
and its children are put there, the leftmost on top. -/
def visit (t : Tree) (stack : List NodeId) (met : Array NodeId) : Array NodeId :=
  match stack with
  | [] => met
  | i :: rest => visit t (t.older i ++ rest) (met.push i)
termination_by (stack.flatMap t.walk).length
decreasing_by
  rw [List.flatMap_cons, walk_eq, List.flatMap_append, List.cons_append, List.length_cons]
  exact Nat.lt_succ_self _

/-- The nodes below `root`, parents first. -/
def preorder (t : Tree) (root : NodeId) : List NodeId := (visit t [root] #[]).toList

end LosslessGo.Tree
