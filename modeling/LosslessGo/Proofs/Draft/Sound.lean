import Mathlib.Data.List.Chain
import LosslessGo.Draft.Gap
import LosslessGo.Proofs.Text.Blanks
import LosslessGo.Proofs.Tree.Grows

/-!
# Trees without lost text

A node is either a leaf or spans its children, and what lies between two children is blank
(`Node.Adjoins`). In strict mode children are in order as well, but for one case: a word of a gap may
reach into the child behind it (`Node.CutAt`).

* `Tree.Sound` says so of every node of a tree; `Tree.Sound.push` keeps it.
* `Tree.Sound.bounds`: no node reaches past the source.
* `Filling.Kept` says so of the children gathered for a node, and `Filling.Reaches` that text is
  accounted for up to an offset.
-/

namespace LosslessGo

/-- Node `n` is a word of a gap, and offset `b` lies inside of it. -/
structure Node.CutAt (source : String) (n : Node) (b : Nat) : Prop where
  isLeaf : n.isLeaf = true
  word : ∃ m, missingAt? source n.offset = some m ∧ n.stop = n.offset + m.text.utf8ByteSize
  offset_lt : n.offset < b
  lt_stop : b < n.stop

/-- The text from the end of node `n` to offset `b` is blank. In strict mode `b` is not before the
end, unless it cuts a word. -/
structure Node.Clear (set : Setting) (n : Node) (b : Nat) : Prop where
  blank : Text.Blank set.source n.stop b
  ordered : set.strict = true → n.stop ≤ b ∨ n.CutAt set.source b

/-- Node `m` may follow node `n`. -/
def Node.Adjoins (set : Setting) (n m : Node) : Prop := n.Clear set m.offset

/-- A leaf inside of the source. Only at the end of the source it may be empty. -/
structure Node.IsLeafIn (set : Setting) (n : Node) : Prop where
  isLeaf : n.isLeaf = true
  children_eq : n.children = []
  offset_le : n.offset ≤ n.stop
  stop_le : n.stop ≤ set.size
  stop_eq : n.offset = n.stop → n.stop = set.size

/-- A node that spans the nodes `ns`. -/
structure Node.Spans (set : Setting) (n : Node) (ns : List Node) : Prop where
  isLeaf_eq : n.isLeaf = false
  offset_eq : ns.head?.map (·.offset) = some n.offset
  stop_eq : ns.getLast?.map (·.stop) = some n.stop
  chain : ns.IsChain (Node.Adjoins set)

namespace Tree

/-- Node `i` is a leaf, or spans its children, which are older. -/
def Fits (set : Setting) (t : Tree) (i : NodeId) : Prop :=
  (t.node i).IsLeafIn set ∨
    ((t.node i).Spans set ((t.children i).map t.node) ∧ ∀ c ∈ t.children i, c < i)

/-- Every node of the tree is a leaf, or spans its children. -/
def Sound (set : Setting) (t : Tree) : Prop := ∀ i < t.size, t.Fits set i

variable {set : Setting} {t t' : Tree}

theorem Grows.map_node (h : t.Grows t') {cs : List NodeId} (hcs : ∀ c ∈ cs, c < t.size) :
    cs.map t'.node = cs.map t.node :=
  List.map_congr_left fun c hc => h.node_eq c (hcs c hc)

theorem Fits.grows {i : NodeId} (h : t.Fits set i) (hi : i < t.size) (hg : t.Grows t') :
    t'.Fits set i := by
  rcases h with h | ⟨h, hlt⟩
  · left
    rwa [hg.node_eq i hi]
  · right
    rw [hg.children_eq hi, hg.node_eq i hi, hg.map_node fun c hc => (hlt c hc).trans hi]
    exact ⟨h, hlt⟩

namespace Sound

theorem empty : Sound set empty := fun _ h => absurd h (Nat.not_lt_zero _)

/-- A tree stays sound where the node that is added fits. -/
theorem push (h : Sound set t) {n : Node}
    (hn : n.IsLeafIn set ∨
      (n.Spans set (n.children.map t.node) ∧ ∀ c ∈ n.children, c < t.size)) :
    Sound set (t.push n) := by
  intro i hi
  have hg := Grows.push t n
  by_cases hlt : i < t.size
  · exact (h i hlt).grows hlt hg
  obtain rfl : i = t.size := by simp only [size_push] at hi; omega
  rcases hn with hn | ⟨hn, hlt'⟩
  · left
    rwa [node_push_size]
  · right
    rw [children, node_push_size, hg.map_node hlt']
    exact ⟨hn, hlt'⟩

/-- No node starts or stops past the end of the source. -/
theorem bounds (h : Sound set t) {i : NodeId} (hi : i < t.size) :
    (t.node i).offset ≤ set.size ∧ (t.node i).stop ≤ set.size := by
  induction i using Nat.strongRecOn with
  | ind i ih =>
    rcases h i hi with hl | ⟨hs, hlt⟩
    · exact ⟨hl.offset_le.trans hl.stop_le, hl.stop_le⟩
    have hold : ∀ n ∈ (t.children i).map t.node, n.offset ≤ set.size ∧ n.stop ≤ set.size := by
      intro n hn
      obtain ⟨c, hc, rfl⟩ := List.mem_map.mp hn
      exact ih c (hlt c hc) ((hlt c hc).trans hi)
    obtain ⟨first, hfirst, hoff⟩ := Option.map_eq_some_iff.mp hs.offset_eq
    obtain ⟨last, hlast, hstop⟩ := Option.map_eq_some_iff.mp hs.stop_eq
    rw [← hoff, ← hstop]
    exact ⟨(hold first (List.mem_of_head? hfirst)).1, (hold last (List.mem_of_getLast? hlast)).2⟩

end Sound

end Tree

/-! ## Drafts -/

namespace Draft

/-- The tree is sound, and comments are nodes of it. -/
structure Sound (set : Setting) (d : Draft) : Prop where
  tree : d.tree.Sound set
  comments : ∀ c ∈ d.comments.toList, c < d.tree.size

/-- The nodes of `d` stand in `d'` as they were, and so do the comments. -/
structure Grows (d d' : Draft) : Prop where
  tree : d.tree.Grows d'.tree
  comments_eq : d'.comments = d.comments

namespace Grows

variable {d d' d'' : Draft}

theorem refl (d : Draft) : Grows d d := ⟨.refl _, rfl⟩

theorem trans (h : Grows d d') (h' : Grows d' d'') : Grows d d'' :=
  ⟨h.tree.trans h'.tree, h'.comments_eq.trans h.comments_eq⟩

end Grows

end Draft

/-! ## Gathered children -/

namespace Filling

/-- The nodes of the children. -/
def nodes (f : Filling) : List Node := f.children.toList.map f.draft.tree.node

/-- The children gathered so far lose nothing, and nothing either from offset `start` on, where it
is given. -/
structure Kept (set : Setting) (start : Option Nat) (f : Filling) : Prop where
  sound : f.draft.Sound set
  lt_size : ∀ c ∈ f.children.toList, c < f.draft.tree.size
  chain : f.nodes.IsChain (Node.Adjoins set)
  lead : ∀ a ∈ start, ∀ n ∈ f.nodes.head?, Text.Blank set.source a n.offset

/-- The text is accounted for up to offset `b`. -/
structure Reaches (set : Setting) (start : Option Nat) (b : Nat) (f : Filling) : Prop
    extends Kept set start f where
  clear : ∀ n ∈ f.nodes.getLast?, n.Clear set b
  blank : f.nodes = [] → ∀ a ∈ start, Text.Blank set.source a b

variable {set : Setting} {start : Option Nat} {f : Filling} {a b : Nat} {d' : Draft}

theorem nodes_grows (hlt : ∀ c ∈ f.children.toList, c < f.draft.tree.size)
    (hg : f.draft.Grows d') : (Filling.mk d' f.children).nodes = f.nodes :=
  hg.tree.map_node hlt

theorem Kept.grows (h : Kept set start f) (hg : f.draft.Grows d') (hs : d'.Sound set) :
    Kept set start ⟨d', f.children⟩ := by
  have hn := nodes_grows h.lt_size hg
  refine ⟨hs, fun c hc => (h.lt_size c hc).trans_le hg.tree.size_le, ?_, ?_⟩
  · rw [hn]
    exact h.chain
  · rw [hn]
    exact h.lead

theorem Reaches.grows (h : Reaches set start b f) (hg : f.draft.Grows d') (hs : d'.Sound set) :
    Reaches set start b ⟨d', f.children⟩ := by
  have hn := nodes_grows h.lt_size hg
  refine ⟨h.toKept.grows hg hs, ?_, ?_⟩
  · rw [hn]
    exact h.clear
  · rw [hn]
    exact h.blank

/-- Text is accounted for up to the end of the last child. -/
theorem Kept.reaches (h : Kept set start f) {n : Node} (hn : f.nodes.getLast? = some n) :
    Reaches set start n.stop f := by
  refine ⟨h, ?_, fun he => by simp [he] at hn⟩
  rintro _ hm
  obtain rfl := Option.some.inj (hn.symm.trans hm)
  exact ⟨.of_le (Nat.le_refl _), fun _ => .inl (Nat.le_refl _)⟩

/-- Without children, text is accounted for up to where it starts. -/
theorem Kept.reaches_start (h : Kept set start f) (he : f.nodes = [])
    (hstart : ∀ b ∈ start, b = a) : Reaches set start a f := by
  refine ⟨h, by simp [he], fun _ b hb => ?_⟩
  obtain rfl := hstart b hb
  exact .of_le (Nat.le_refl _)

/-- Blanks are passed over. -/
theorem Reaches.skip (h : Reaches set start a f) (hab : a ≤ b)
    (hblank : Text.Blank set.source a b) : Reaches set start b f := by
  refine ⟨h.toKept, fun n hn => ⟨(h.clear n hn).blank.trans hblank, fun hs => ?_⟩,
    fun he c hc => (h.blank he c hc).trans hblank⟩
  rcases (h.clear n hn).ordered hs with hle | hcut
  · exact .inl (hle.trans hab)
  by_cases hb : n.stop ≤ b
  · exact .inl hb
  · exact .inr ⟨hcut.isLeaf, hcut.word, hcut.offset_lt.trans_le hab, by omega⟩

/-- Without strictness text may be accounted for twice. -/
theorem Reaches.back (h : Reaches set start a f) (hba : b ≤ a) (hs : set.strict = false) :
    Reaches set start b f :=
  ⟨h.toKept,
    fun n hn => ⟨fun k c h₁ h₂ => (h.clear n hn).blank k c h₁ (h₂.trans_le hba), by simp [hs]⟩,
    fun he c hc k x h₁ h₂ => h.blank he c hc k x h₁ (h₂.trans_le hba)⟩

/-- A child is gathered where it starts. -/
theorem Reaches.push (h : Reaches set start b f) {i : NodeId} (hi : i < f.draft.tree.size)
    (hb : (f.draft.tree.node i).offset = b) :
    Reaches set start (f.draft.tree.node i).stop ⟨f.draft, f.children.push i⟩ := by
  have hn : (Filling.mk f.draft (f.children.push i)).nodes = f.nodes ++ [f.draft.tree.node i] := by
    simp [nodes]
  have hk : Kept set start ⟨f.draft, f.children.push i⟩ := by
    refine ⟨h.sound, ?_, ?_, ?_⟩
    · simp only [Array.toList_push, List.mem_append, List.mem_singleton]
      rintro c (hc | rfl)
      · exact h.lt_size c hc
      · exact hi
    · rw [hn]
      refine h.chain.append (.singleton _) fun n hlast m hm => ?_
      obtain rfl : f.draft.tree.node i = m := by simpa using hm
      rw [Node.Adjoins, hb]
      exact h.clear n hlast
    · rw [hn]
      intro a ha n hfirst
      cases he : f.nodes with
      | nil =>
        obtain rfl : f.draft.tree.node i = n := by simpa [he] using hfirst
        rw [hb]
        exact h.blank he a ha
      | cons m ms => exact h.lead a ha n (by simpa [he] using hfirst)
  exact hk.reaches (by simp [hn])

end Filling

end LosslessGo
