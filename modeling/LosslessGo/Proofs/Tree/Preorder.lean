import LosslessGo.Proofs.Tree.Walk

/-!
# A walk with a stack, step by step

A walk takes the last node off a stack, meets it and puts all its children there, the leftmost last
(`Visiting.next?`). What is met at the end is known from the start: the nodes met so far, and then those
below the nodes on the stack (`Visiting.all`). A step keeps that (`all_of_next?`) and leaves one node less
to meet (`pending_of_next?`), and so a walk ends.

* `Visiting.Runs`: the steps of a walk up to its end.
* `Tree.Descends.eq_preorder_iff`: the order of a walk, by recursion on the tree.
* `Tree.preorder_runs`: a walk from any root ends, with the nodes in this order.
-/

namespace LosslessGo

/-- A walk under way: the nodes on its stack, the next one last, and the nodes that it has met. -/
structure Visiting where
  stack : Array NodeId
  met : Array NodeId
  deriving DecidableEq

namespace Visiting

/-- A walk that starts at `root`. -/
def start (root : NodeId) : Visiting := ⟨#[root], #[]⟩

/-- One step, or none where the stack is empty. -/
def next? (t : Tree) (v : Visiting) : Option Visiting :=
  v.stack.back?.map fun i => ⟨v.stack.pop ++ (t.children i).reverse, v.met.push i⟩

/-- The walk ends after `n` steps with the nodes `met`. -/
inductive Runs (t : Tree) : Visiting → Nat → Array NodeId → Prop where
  | done {v : Visiting} : v.next? t = none → Runs t v 0 v.met
  | step {v v' : Visiting} {n : Nat} {met : Array NodeId} :
    v.next? t = some v' → Runs t v' n met → Runs t v (n + 1) met

/-- The nodes below those on the stack, in the order in which they come off. -/
def pending (t : Tree) (v : Visiting) : List NodeId := v.stack.toList.reverse.flatMap t.walk

/-- The nodes met so far, and then those below the nodes on the stack. -/
def all (t : Tree) (v : Visiting) : List NodeId := v.met.toList ++ v.pending t

variable {t : Tree} {v v' : Visiting} {n n' : Nat} {met met' : Array NodeId}

/-! ## Steps -/

theorem next?_eq_none_iff : v.next? t = none ↔ v.stack = #[] := by
  rw [next?, Option.map_eq_none_iff, Array.back?_eq_none_iff]

theorem next?_eq_some_iff : v.next? t = some v' ↔ ∃ stack : Array NodeId, ∃ i,
    v.stack = stack.push i ∧ v' = ⟨stack ++ (t.children i).reverse, v.met.push i⟩ := by
  rw [next?, Option.map_eq_some_iff]
  constructor
  · rintro ⟨i, hi, rfl⟩
    obtain ⟨stack, heq⟩ := Array.back?_eq_some_iff.mp hi
    exact ⟨stack, i, heq, by rw [heq, Array.pop_push]⟩
  · rintro ⟨stack, i, heq, rfl⟩
    exact ⟨i, by rw [heq, Array.back?_push], by rw [heq, Array.pop_push]⟩

/-- A step meets the first of the pending nodes, and its children take their places. -/
theorem pending_of_next? (h : t.Descends) (hv : v.next? t = some v') :
    ∃ i, v'.met = v.met.push i ∧ v.pending t = i :: v'.pending t := by
  obtain ⟨stack, i, hstack, rfl⟩ := next?_eq_some_iff.mp hv
  refine ⟨i, rfl, ?_⟩
  calc v.pending t
    _ = t.walk i ++ stack.toList.reverse.flatMap t.walk := by
      simp [pending, hstack]
    _ = i :: ((t.children i).flatMap t.walk ++ stack.toList.reverse.flatMap t.walk) := by
      rw [h.walk_eq, List.cons_append]
    _ = i :: pending t ⟨stack ++ (t.children i).reverse, v.met.push i⟩ := by
      simp [pending]

theorem all_of_next? (h : t.Descends) (hv : v.next? t = some v') : v'.all t = v.all t := by
  obtain ⟨i, hmet, hpending⟩ := pending_of_next? h hv
  rw [all, all, hmet, hpending, Array.toList_push, List.append_assoc, List.singleton_append]

/-! ## Runs -/

/-- A walk has one end at most, as a step leads to one stack. -/
theorem Runs.unique (hr : Runs t v n met) (hr' : Runs t v n' met') : n = n' ∧ met = met' := by
  induction hr generalizing n' with
  | done hv =>
    cases hr' with
    | done => exact ⟨rfl, rfl⟩
    | step hv' => cases hv.symm.trans hv'
  | step hv _ ih =>
    cases hr' with
    | done hv' => cases hv.symm.trans hv'
    | step hv' hr' =>
      obtain rfl := Option.some.inj (hv.symm.trans hv')
      obtain ⟨rfl, rfl⟩ := ih hr'
      exact ⟨rfl, rfl⟩

/-- A walk ends after as many steps as there are pending nodes. -/
theorem runs (h : t.Descends) (v : Visiting) :
    Runs t v (v.pending t).length (v.all t).toArray := by
  induction hn : (v.pending t).length generalizing v with
  | zero =>
    cases hv : v.next? t with
    | none =>
      have hall : (v.all t).toArray = v.met := by
        rw [all, List.eq_nil_of_length_eq_zero hn, List.append_nil, Array.toArray_toList]
      rw [hall]
      exact .done hv
    | some v' =>
      obtain ⟨i, -, hpending⟩ := pending_of_next? h hv
      simp [hpending] at hn
  | succ n ih =>
    cases hv : v.next? t with
    | none =>
      simp [pending, next?_eq_none_iff.mp hv] at hn
    | some v' =>
      obtain ⟨i, -, hpending⟩ := pending_of_next? h hv
      have hrest : (v'.pending t).length = n := by
        rw [hpending, List.length_cons] at hn
        exact Nat.succ.inj hn
      rw [← all_of_next? h hv]
      exact .step hv (ih v' hrest)

end Visiting

namespace Tree

variable {t : Tree} {root : NodeId}

/-! ## The order by recursion -/

theorem descends_iff : t.Descends ↔ ∀ i < t.size, ∀ c ∈ t.children i, c < i :=
  ⟨fun h i _ => h i, fun h i c hc => h i (Grows.lt_size_of_child hc) c hc⟩

theorem Descends.preorder_eq (h : t.Descends) (i : NodeId) :
    t.preorder i = i :: (t.children i).flatMap t.preorder := by
  have hwalk : t.preorder = t.walk := funext t.preorder_eq_walk
  rw [hwalk]
  exact h.walk_eq i

/-- One function gives each node and then what it gives for the children, from left to right. -/
theorem Descends.eq_preorder_iff (h : t.Descends) {f : NodeId → List NodeId} :
    (∀ i, f i = i :: (t.children i).flatMap f) ↔ f = t.preorder := by
  constructor
  · intro hf
    funext i
    induction i using Nat.strongRecOn with
    | ind i ih =>
      rw [hf i, h.preorder_eq i]
      exact congrArg (i :: ·) (List.flatMap_congr fun c hc => ih c (h i c hc))
  · rintro rfl
    exact h.preorder_eq

/-! ## Walks from a root -/

theorem Descends.runs_start_iff (h : t.Descends) (root : NodeId) {n : Nat} {met : Array NodeId} :
    Visiting.Runs t (.start root) n met ↔
      n = (t.preorder root).length ∧ met.toList = t.preorder root := by
  have hpending : (Visiting.start root).pending t = t.preorder root := by
    simp [Visiting.pending, Visiting.start, preorder_eq_walk]
  have hruns := Visiting.runs h (.start root)
  rw [Visiting.all, hpending, show (Visiting.start root).met.toList = [] from rfl,
    List.nil_append] at hruns
  constructor
  · intro hr
    obtain ⟨rfl, rfl⟩ := hr.unique hruns
    exact ⟨rfl, rfl⟩
  · rintro ⟨rfl, hmet⟩
    rw [← hmet, Array.toArray_toList] at hruns
    rwa [← hmet]

/-- Where children are older than their parents, a walk with a stack ends, from any root and after as many
steps as it meets nodes, even if some are met often because they have many parents. All that it meets are
nodes of the tree, and in the order that recursion gives: the root, then the nodes below each child, from
left to right. -/
theorem preorder_runs (h : t.Descends) (hroot : root < t.size) :
    (∀ f : NodeId → List NodeId, (∀ i, f i = i :: (t.children i).flatMap f) ↔ f = t.preorder) ∧
    (∀ n met, Visiting.Runs t (.start root) n met ↔
      n = (t.preorder root).length ∧ met.toList = t.preorder root) ∧
    ∀ j ∈ t.preorder root, j < t.size := by
  refine ⟨fun _ => h.eq_preorder_iff, fun _ _ => h.runs_start_iff root, fun j hj => ?_⟩
  rw [preorder_eq_walk] at hj
  exact (le_of_mem_walk hj).trans_lt hroot

/-- A tree in which two nodes share the leaf, and the root has one of them twice. -/
def sharingTree : Tree :=
  ⟨([[], [0], [0, 1], [2, 1, 2]].map fun cs => { (default : Node) with children := cs }).toArray⟩

theorem preorder_runs_sharingTree :
    sharingTree.Descends ∧ 3 < sharingTree.size ∧
      Visiting.Runs sharingTree (.start 3) 11 #[3, 2, 0, 1, 0, 1, 0, 2, 0, 1, 0] := by
  have hdescends : sharingTree.Descends := descends_iff.mpr (by decide)
  have hsize : 3 < sharingTree.size := by decide
  have horder : sharingTree.preorder 3 = [3, 2, 0, 1, 0, 1, 0, 2, 0, 1, 0] := by
    cbv
  refine ⟨hdescends, hsize, ((preorder_runs hdescends hsize).2.1 _ _).mpr ?_⟩
  rw [horder]
  exact ⟨rfl, rfl⟩

end Tree

end LosslessGo
