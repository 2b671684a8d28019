import LosslessGo.Proofs.Draft.Sound
import LosslessGo.Proofs.Tree.Walk

/-!
# Leaves in the order of the text

In strict mode a walk meets the leaves that hold text in the order of their offsets
(`Tree.Sound.spread`). A word of a gap may reach into the leaf behind it, but it starts before that
leaf all the same.
-/

namespace LosslessGo

variable {set : Setting} {t : Tree} {i j c : NodeId} {is : List NodeId} {a b a' b' : Nat}

/-- Whether the node is a leaf that holds text. -/
def Node.isWord (n : Node) : Bool := n.isLeaf && n.offset < n.stop

theorem Node.isWord_iff {n : Node} : n.isWord = true ↔ n.isLeaf = true ∧ n.offset < n.stop := by
  simp [isWord]

namespace Tree

/-- The leaves below node `i` that hold text, as a walk meets them. -/
def words (t : Tree) (i : NodeId) : List NodeId := (t.walk i).filter fun j => (t.node j).isWord

/-- Walks from the given nodes meet leaves in order, all of which start from offset `a` on and before
offset `b`. -/
structure Spread (t : Tree) (is : List NodeId) (a b : Nat) : Prop where
  le : a ≤ b
  within : ∀ j ∈ is.flatMap t.words, a ≤ (t.node j).offset ∧ (t.node j).offset < b
  pairwise : (is.flatMap t.words).Pairwise fun i j => (t.node i).offset < (t.node j).offset

/-- One node starts before others, and its leaves too. -/
theorem Spread.cons (hi : t.Spread [i] a b) (his : t.Spread is a' b') (hle : a ≤ a')
    (hlt : ∀ j ∈ t.words i, (t.node j).offset < a') : t.Spread (i :: is) a b' := by
  have hwithin := hi.within
  have hpairwise := hi.pairwise
  rw [List.flatMap_singleton] at hwithin hpairwise
  refine ⟨hle.trans his.le, fun j hj => ?_, ?_⟩
  · rw [List.flatMap_cons, List.mem_append] at hj
    rcases hj with hj | hj
    · exact ⟨(hwithin j hj).1, (hlt j hj).trans_le his.le⟩
    · exact ⟨hle.trans (his.within j hj).1, (his.within j hj).2⟩
  · rw [List.flatMap_cons, List.pairwise_append]
    exact ⟨hpairwise, his.pairwise, fun j hj j' hj' => (hlt j hj).trans_le (his.within j' hj').1⟩

/-- A leaf has no leaves below but itself. -/
theorem words_of_leaf (h : t.Descends) (hi : t.children i = []) (hj : j ∈ t.words i) : j = i := by
  have hmem := (List.mem_filter.mp hj).1
  rw [h.walk_eq, hi] at hmem
  simpa using hmem

namespace Sound

variable (h : t.Sound set)

include h

theorem descends : t.Descends := by
  intro i c hc
  rcases h i (Grows.lt_size_of_child hc) with hl | ⟨-, hlt⟩
  · rw [children, hl.children_eq] at hc
    cases hc
  · exact hlt c hc

variable (hstrict : set.strict = true)

include hstrict

/-- Leaves below a node start before the node that follows it. -/
theorem lt_of_adjoins (hi : i < t.size) (hspread : t.Spread [i] (t.node i).offset (t.node i).stop)
    {m : Node} (hadj : (t.node i).Adjoins set m) :
    (t.node i).offset ≤ m.offset ∧ ∀ j ∈ t.words i, (t.node j).offset < m.offset := by
  rcases hadj.ordered hstrict with hle | hcut
  · refine ⟨hspread.le.trans hle, fun j hj => ?_⟩
    exact (hspread.within j (by simpa using hj)).2.trans_le hle
  · refine ⟨hcut.offset_lt.le, fun j hj => ?_⟩
    have hchildren : t.children i = [] := by
      rcases h i hi with hl | ⟨hs, -⟩
      · exact hl.children_eq
      · have := hcut.isLeaf
        rw [hs.isLeaf_eq] at this
        cases this
    rw [words_of_leaf h.descends hchildren hj]
    exact hcut.offset_lt

/-- Siblings that adjoin each other are in order. -/
theorem spread_of_chain {cs : List NodeId} {first last : Node} (hlt : ∀ c ∈ cs, c < t.size)
    (hspread : ∀ c ∈ cs, t.Spread [c] (t.node c).offset (t.node c).stop)
    (hchain : (cs.map t.node).IsChain (Node.Adjoins set))
    (hfirst : (cs.map t.node).head? = some first) (hlast : (cs.map t.node).getLast? = some last) :
    t.Spread cs first.offset last.stop := by
  induction cs generalizing first with
  | nil => cases hfirst
  | cons c cs ih =>
    obtain rfl : t.node c = first := by simpa using hfirst
    obtain ⟨hc, hcs⟩ := List.forall_mem_cons.mp hspread
    cases cs with
    | nil =>
      obtain rfl : t.node c = last := by simpa using hlast
      exact hc
    | cons c' cs =>
      obtain ⟨hadj, hchain⟩ := List.isChain_cons_cons.mp hchain
      obtain ⟨hle, hwords⟩ := h.lt_of_adjoins hstrict (hlt c (by simp)) hc hadj
      have hrest := ih (fun c hc => hlt c (List.mem_cons_of_mem _ hc)) hcs hchain rfl
        (by simpa using hlast)
      exact hc.cons hrest hle hwords

/-- A walk meets leaves in order. -/
theorem spread (hi : i < t.size) : t.Spread [i] (t.node i).offset (t.node i).stop := by
  induction i using Nat.strongRecOn with
  | ind i ih =>
    have hwalk := h.descends.walk_eq i
    rcases h i hi with hl | ⟨hs, hlt⟩
    · have hchildren : t.children i = [] := hl.children_eq
      have hwords : t.words i = if (t.node i).isWord then [i] else [] := by
        rw [words, hwalk, hchildren, List.flatMap_nil, List.filter_singleton, cond_eq_ite]
      refine ⟨hl.offset_le, fun j hj => ?_, ?_⟩
      · rw [List.flatMap_singleton] at hj
        have hword := (List.mem_filter.mp hj).2
        obtain rfl := words_of_leaf h.descends hchildren hj
        exact ⟨Nat.le_refl _, (Node.isWord_iff.mp hword).2⟩
      · rw [List.flatMap_singleton, hwords]
        split <;> simp
    · have hwords : t.words i = (t.children i).flatMap t.words := by
        have hno : (t.node i).isWord = false := by simp [Node.isWord, hs.isLeaf_eq]
        rw [words, hwalk, List.filter_cons_of_neg (by simp [hno]), List.filter_flatMap]
        rfl
      obtain ⟨first, hfirst, hoff⟩ := Option.map_eq_some_iff.mp hs.offset_eq
      obtain ⟨last, hlast, hstop⟩ := Option.map_eq_some_iff.mp hs.stop_eq
      have hcs := h.spread_of_chain hstrict (fun c hc => (hlt c hc).trans hi)
        (fun c hc => ih c (hlt c hc) ((hlt c hc).trans hi)) hs.chain hfirst hlast
      rw [hoff, hstop] at hcs
      refine ⟨hcs.le, ?_, ?_⟩
      · rw [List.flatMap_singleton, hwords]
        exact hcs.within
      · rw [List.flatMap_singleton, hwords]
        exact hcs.pairwise

/-- No leaf that holds text is met twice. -/
theorem nodup_words (hi : i < t.size) : (t.words i).Nodup := by
  have hpairwise := (h.spread hstrict hi).pairwise
  rw [List.flatMap_singleton] at hpairwise
  refine hpairwise.imp ?_
  rintro i _ hlt rfl
  exact Nat.lt_irrefl _ hlt

end Sound

end Tree

end LosslessGo
