import Mathlib.Data.List.Chain
import LosslessGo.Flow.Build

/-!
# Walks through blocks

A walk goes from place to place through the blocks of a body: over the nodes of a block one by one, and
from the end of a block to a successor.

* `IsPath`, `keysAlong`: the paths from block 0 and the nodes that are read along them.
* `walk_iff`: a walk from the start of block 0 reads what begins the nodes along some path.
-/

namespace LosslessGo.Flow

open Go (Key)

/-- A place in a block, before the node at `index` or at the end. -/
structure Place where
  block : Nat
  index : Nat

/-- The start of a block. -/
def Place.start (b : Nat) : Place := ⟨b, 0⟩

/-- The block of a number. -/
def blockAt (bs : List Block) (b : Nat) : Block := bs.getD b ⟨[], []⟩

variable {bs : List Block} {p q : Place} {k : Key} {ks : List Key} {b : Nat}

/-- Node `k` is evaluated at place `p`, and place `q` is behind it. -/
structure Holds (bs : List Block) (p : Place) (k : Key) (q : Place) : Prop where
  node : (blockAt bs p.block).nodes[p.index]? = some k
  next : q = ⟨p.block, p.index + 1⟩

/-- Place `p` is the end of a block with successors `ns`. -/
structure Ends (bs : List Block) (p : Place) (ns : List Nat) : Prop where
  index : p.index = (blockAt bs p.block).nodes.length
  successors : (blockAt bs p.block).successors = ns

theorem Holds.unique {k' : Key} {q' : Place} (h : Holds bs p k q) (h' : Holds bs p k' q') :
    k = k' ∧ q = q' :=
  ⟨Option.some.inj (h.node.symm.trans h'.node), h.next.trans h'.next.symm⟩

theorem Holds.not_ends {ns : List Nat} (h : Holds bs p k q) : ¬Ends bs p ns := by
  intro h'
  have hnode := h.node
  rw [h'.index] at hnode
  simp at hnode

/-- The keys `ks` are read along a walk from place `p`. -/
inductive Walk (bs : List Block) : Place → List Key → Prop where
  | stop {p : Place} : Walk bs p []
  | emit {p q : Place} {k : Key} {ks : List Key} : Holds bs p k q → Walk bs q ks → Walk bs p (k :: ks)
  | jump {p : Place} {ns : List Nat} {b : Nat} {ks : List Key} :
    Ends bs p ns → b ∈ ns → Walk bs (.start b) ks → Walk bs p ks

/-! ## Paths -/

/-- Block numbers from 0 on, each a successor of the one before. -/
structure IsPath (bs : List Block) (path : List Nat) : Prop where
  head : path.head? = some 0
  chain : path.IsChain fun b c => c ∈ (blockAt bs b).successors

/-- The nodes of blocks in order. -/
def keysAlong (bs : List Block) (path : List Nat) : List Key :=
  path.flatMap fun b => (blockAt bs b).nodes

/-- A walk reads the rest of its block and then goes along a path. -/
theorem Walk.exists_path (h : Walk bs p ks) (hp : p.index ≤ (blockAt bs p.block).nodes.length) :
    ∃ path, (p.block :: path).IsChain (fun b c => c ∈ (blockAt bs b).successors) ∧
      ks <+: (blockAt bs p.block).nodes.drop p.index ++ keysAlong bs path := by
  induction h with
  | stop => exact ⟨[], .singleton _, List.nil_prefix⟩
  | emit hk _ ih =>
    obtain ⟨hlt, hget⟩ := List.getElem?_eq_some_iff.mp hk.node
    obtain rfl := hk.next
    obtain ⟨path, hchain, hpre⟩ := ih hlt
    refine ⟨path, hchain, ?_⟩
    rw [List.drop_eq_getElem_cons hlt, hget, List.cons_append, List.cons_prefix_cons]
    exact ⟨rfl, hpre⟩
  | jump he hb _ ih =>
    obtain ⟨path, hchain, hpre⟩ := ih (Nat.zero_le _)
    refine ⟨_ :: path, .cons_cons (he.successors ▸ hb) hchain, ?_⟩
    rw [he.index, List.drop_length, List.nil_append]
    simpa [keysAlong, Place.start] using hpre

/-- A walk reads the rest of its block first. -/
theorem Walk.within {i : Nat} {rest : List Key} (hi : i ≤ (blockAt bs b).nodes.length)
    (h : ks <+: (blockAt bs b).nodes.drop i ++ rest)
    (hrest : ∀ ks', ks' <+: rest → Walk bs ⟨b, (blockAt bs b).nodes.length⟩ ks') :
    Walk bs ⟨b, i⟩ ks := by
  induction ks generalizing i with
  | nil => exact .stop
  | cons k ks ih =>
    rcases Nat.lt_or_ge i (blockAt bs b).nodes.length with hlt | hge
    · rw [List.drop_eq_getElem_cons hlt, List.cons_append, List.cons_prefix_cons] at h
      exact .emit ⟨by rw [h.1, List.getElem?_eq_getElem hlt], rfl⟩ (ih hlt h.2)
    · rw [List.drop_eq_nil_of_le hge, List.nil_append] at h
      rw [Nat.le_antisymm hi hge]
      exact hrest _ h

/-- What begins the nodes from a place on along a path is read by a walk. -/
theorem Walk.of_path {path : List Nat} {i : Nat}
    (hchain : (b :: path).IsChain fun b c => c ∈ (blockAt bs b).successors)
    (hi : i ≤ (blockAt bs b).nodes.length)
    (h : ks <+: (blockAt bs b).nodes.drop i ++ keysAlong bs path) : Walk bs ⟨b, i⟩ ks := by
  induction path generalizing b i ks with
  | nil =>
    refine .within hi h fun ks' h' => ?_
    rw [keysAlong, List.flatMap_nil, List.prefix_nil] at h'
    rw [h']
    exact .stop
  | cons c path ih =>
    obtain ⟨hc, hchain⟩ := List.isChain_cons_cons.mp hchain
    refine .within hi h fun ks' h' => .jump ⟨rfl, rfl⟩ hc (ih hchain (Nat.zero_le _) ?_)
    rw [keysAlong, List.flatMap_cons] at h'
    exact h'

/-- A walk from the start of block 0 reads what begins the nodes along some path. -/
theorem walk_iff : Walk bs (.start 0) ks ↔ ∃ path, IsPath bs path ∧ ks <+: keysAlong bs path := by
  constructor
  · intro h
    obtain ⟨path, hchain, hpre⟩ := h.exists_path (Nat.zero_le _)
    exact ⟨0 :: path, ⟨rfl, hchain⟩, by simpa [keysAlong, Place.start] using hpre⟩
  · rintro ⟨path, ⟨hhead, hchain⟩, hpre⟩
    obtain ⟨rest, rfl⟩ : ∃ rest, path = 0 :: rest := by
      cases path with
      | nil => cases hhead
      | cons b rest => exact ⟨rest, by rw [Option.some.inj hhead]⟩
    exact .of_path hchain (Nat.zero_le _) (by simpa [keysAlong] using hpre)

end LosslessGo.Flow
