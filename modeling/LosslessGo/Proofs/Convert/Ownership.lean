import LosslessGo.Proofs.Convert.Coverage
import LosslessGo.Proofs.Convert.Words
import LosslessGo.Proofs.Plan.Owns

/-!
# Every node has one parent

A converted file starts with the leaves of its comments. All nodes behind them are below the root, each
once (`Converted.Rooted`), in strict mode or not. In strict mode the comments are below the root at most
once as well.

* `convertFile_rooted`: what is below the root of a file.
* `convertFile_owned`: in strict mode, every node below the root but the root itself is a child at one
  place.
-/

namespace LosslessGo

open scoped List

variable {set : Setting} {d d' : Draft}

/-! ## Comments -/

/-- A leaf that is not the end of the file holds text. -/
theorem Node.IsLeafOver.isWord {n : Node} {offset stop : Nat} {kind : TokenKind} {type : NodeType}
    {fields : Fields} (h : n.IsLeafOver set offset stop kind type fields)
    (hkind : kind ≠ .endOfFile) : n.isWord = true := by
  rw [Node.isWord_iff, h.offset_eq, h.stop_eq]
  exact ⟨h.isLeaf, h.offset_lt hkind⟩

/-- Nothing but comments has been made, one leaf for each. -/
structure Draft.Commented (set : Setting) (d : Draft) : Prop where
  leaf : ∀ i < d.tree.size, ∃ offset stop,
    (d.tree.node i).IsLeafOver set offset stop .comment .native (tokenFields "")
  comments_eq : d.comments.toList = List.range d.tree.size
  tokens_eq : d.tokens.toList = []

theorem Build.comments_commented {cs : List Go.Comment} (hd : d.Commented set) :
    Yields (comments set cs) d fun _ d' => d'.Commented set := by
  refine comments_yields_of ?_ hd
  intro d n offset stop hd hn
  obtain ⟨range, text, htoken, -⟩ := hn.token_eq
  have hsize : (d.add n).tree.size = d.tree.size + 1 := Tree.size_push
  refine ⟨fun i hi => ?_, ?_, ?_⟩
  · have hlt : i < (d.add n).tree.size := hi
    by_cases hold : i < d.tree.size
    · rw [show (d.add n).tree.node i = d.tree.node i from Tree.node_push_of_lt hold]
      exact hd.leaf i hold
    · obtain rfl : i = d.tree.size := by omega
      rw [show (d.add n).tree.node d.tree.size = n from Tree.node_push_size]
      exact ⟨_, stop, hn⟩
  · show (d.comments.push d.tree.size).toList = List.range (d.add n).tree.size
    rw [hsize, List.range_succ, ← hd.comments_eq]
    exact Array.toList_push
  · show (d.add n).tokens.toList = []
    rw [← hd.tokens_eq]
    simp [Draft.add, htoken, TokenKind.isListed]

namespace Draft.Commented

variable (h : d.Commented set) {i : NodeId} (hi : i < d.tree.size)

include h hi

theorem hidden : (d.tree.node i).isVisible = false ∧ (d.tree.node i).isListed = false := by
  obtain ⟨offset, stop, hn⟩ := h.leaf i hi
  obtain ⟨range, text, htoken, -⟩ := hn.token_eq
  simp [Node.isVisible, Node.isListed, htoken, TokenKind.isListed]

theorem bare : d.tree.children i = [] := by
  obtain ⟨offset, stop, hn⟩ := h.leaf i hi
  exact hn.children_eq

omit hi

theorem based : d.Based d.tree.size := by
  refine ⟨Nat.le_refl _, fun i hi => (h.hidden hi).1, fun i hi => h.bare hi, fun c hc => ?_,
    fun i c hc => ?_⟩
  · rw [h.comments_eq] at hc
    exact List.mem_range.mp hc
  · rw [h.bare (Tree.Grows.lt_size_of_child hc)] at hc
    cases hc

end Draft.Commented

/-! ## The tree of a file -/

/-- The first `k` nodes of a file are its comments. The other ones are those below the root, each
once. -/
structure Converted.Rooted (r : Converted) (set : Setting) (k : Nat) (root : NodeId) : Prop where
  sound : r.tree.Sound set
  lt_size : root < r.tree.size
  visible : (r.tree.node root).isVisible = true
  comments_eq : r.comments = List.range k
  comment : ∀ i < k, ∃ offset stop,
    (r.tree.node i).IsLeafOver set offset stop .comment .native (tokenFields "")
  perm : r.tree.later k root ~ List.range' k (r.tree.size - k)
  formed : ∀ i, k ≤ i → i < r.tree.size → (r.tree.node i).Formed r.tree k i
  tokens_perm : r.tokens ~ (r.tree.later k root).filter fun i => (r.tree.node i).isListed
  tokens_sorted : r.tokens.Pairwise fun i j => (r.tree.node i).offset ≤ (r.tree.node j).offset

theorem buildFile_owns {facts : Facts} {file : Go.File} :
    Yields (buildFile set facts file) .empty fun x d' =>
      ∃ d, Build.comments set file.comments.flatten .empty = .ok () d ∧ d.Commented set ∧
        d.OwnsOne d.tree.size x d' := by
  have hempty : Draft.empty.Commented set :=
    ⟨fun i hi => absurd hi (Nat.not_lt_zero i), rfl, rfl⟩
  refine .bind ((Yields.and (fun _ _ hrun => hrun) (Build.comments_commented hempty)).mono ?_)
  rintro ⟨⟩ d₁ ⟨hrun, hd₁⟩
  refine .bind ((Plan.build_owns "" _ (Plan.ofFile_regular file) hd₁.based).mono ?_)
  rintro x d₂ hx
  refine .bind (checkRoot_yields.mono ?_)
  rintro - _ rfl
  exact .pure ⟨d₁, hrun, hd₁, hx⟩

theorem Draft.tokensByOffset_perm (d : Draft) : d.tokensByOffset ~ d.tokens.toList :=
  List.mergeSort_perm _ _

theorem Draft.tokensByOffset_sorted (d : Draft) :
    d.tokensByOffset.Pairwise fun i j => (d.tree.node i).offset ≤ (d.tree.node j).offset := by
  refine (List.pairwise_mergeSort (fun i j l => ?_) (fun i j => ?_) _).imp fun h => ?_
  · simpa using Nat.le_trans
  · simpa using Nat.le_total _ _
  · simpa using h

/-- What is below the root of a file. -/
theorem convertFile_rooted {file : Go.File} {source : SourceFile} {symbols : SymbolTable}
    {options : ConvertOptions} {r : Converted}
    (h : convertFile file source symbols options = .ok r) :
    ∃ k root, r.root = some root ∧ r.Rooted ⟨source, options.strict⟩ k root := by
  unfold convertFile at h
  split at h
  · rename_i x d' hd'
    cases h
    obtain ⟨hs, root, rfl, hroot⟩ := buildFile_yields x d' hd'
    obtain ⟨d, -, hd, hx⟩ := buildFile_owns _ d' hd'
    have hg := hx.owns.grows
    have hperm : d'.tree.later d.tree.size root ~ d.added d' := by
      simpa using hx.owns.perm
    refine ⟨d.tree.size, root, rfl, hs.tree, hroot.lt_size, hx.visible root rfl, ?_, fun i hi => ?_,
      hperm, fun i hk hi => hx.owns.formed i (Draft.mem_added.mpr ⟨hk, hi⟩), ?_,
      d'.tokensByOffset_sorted⟩
    · rw [hg.comments_eq, hd.comments_eq]
    · rw [hg.tree.node_eq i hi]
      exact hd.leaf i hi
    · have htokens : d'.tokens.toList = d.addedTokens d' := by
        rw [hx.owns.tokens_eq, hd.tokens_eq, List.nil_append]
      refine d'.tokensByOffset_perm.trans ?_
      rw [htokens]
      exact (hperm.filter _).symm
  · cases h

namespace Converted.Rooted

variable {r : Converted} {k : Nat} {root : NodeId} (h : r.Rooted set k root)

include h

theorem le_root : k ≤ root := by
  by_contra hlt
  obtain ⟨offset, stop, hn⟩ := h.comment root (Nat.lt_of_not_le hlt)
  obtain ⟨range, text, htoken, -⟩ := hn.token_eq
  have hvisible := h.visible
  simp [Node.isVisible, htoken, TokenKind.isListed] at hvisible

theorem nodup_later : (r.tree.later k root).Nodup := h.perm.nodup_iff.mpr List.nodup_range'

/-- In strict mode a walk meets no node twice. -/
theorem nodup_walk (hstrict : set.strict = true) : (r.tree.walk root).Nodup := by
  have hwords := h.sound.nodup_words hstrict h.lt_size
  have hlater := h.nodup_later
  rw [List.nodup_iff_count_le_one] at hwords hlater ⊢
  intro a
  -- Comments are leaves that hold text, and the other nodes are below the root once in any mode.
  by_cases ha : k ≤ a
  · have hcount := hlater a
    rwa [Tree.later, List.count_filter (by simpa using ha)] at hcount
  · obtain ⟨offset, stop, hn⟩ := h.comment a (Nat.lt_of_not_le ha)
    have hword := hn.isWord (by decide)
    have hcount := hwords a
    rwa [Tree.words, List.count_filter (p := fun j => (r.tree.node j).isWord) hword] at hcount

end Converted.Rooted

/-! ## Parents -/

/-- Below `root`, every node but the root is a child at one place: of one parent that is below the root,
and at one position among its children. -/
def Tree.Owned (t : Tree) (root : NodeId) : Prop :=
  ∀ j, t.Below root j → j ≠ root →
    ∃! place : NodeId × Nat, t.Below root place.1 ∧ (t.children place.1)[place.2]? = some j

/-- Nodes that a walk does not meet twice have one parent. -/
theorem Tree.Descends.owned {t : Tree} (h : t.Descends) {root : NodeId}
    (hnodup : (t.walk root).Nodup) : t.Owned root := by
  intro j hj hne
  have hperm := h.walk_perm root
  have hchildren : ((t.walk root).flatMap t.children).Nodup :=
    (List.nodup_cons.mp (hperm.nodup_iff.mp hnodup)).2
  have hmem : j ∈ (t.walk root).flatMap t.children :=
    List.mem_of_ne_of_mem hne (hperm.mem_iff.mp (h.mem_walk.mpr hj))
  obtain ⟨p, hp, hjp⟩ := List.mem_flatMap.mp hmem
  obtain ⟨n, hlt, hn⟩ := List.mem_iff_getElem.mp hjp
  refine ⟨(p, n), ⟨h.mem_walk.mp hp, ?_⟩, ?_⟩
  · exact List.getElem?_eq_some_iff.mpr ⟨hlt, hn⟩
  rintro ⟨p', n'⟩ ⟨hp', hn'⟩
  obtain rfl : p' = p := eq_of_nodup_flatMap hchildren (h.mem_walk.mpr hp') hp
    (List.mem_of_getElem? hn') hjp
  have hpos : (t.children p')[n]? = (t.children p')[n']? := by
    rw [hn', List.getElem?_eq_getElem hlt, hn]
  rw [(List.getElem?_inj hlt ((List.nodup_flatMap.mp hchildren).1 p' hp)).mp hpos]

/-- Children are older than their parents. In strict mode every node below the root of a file, a comment
or not, is a child at one place. -/
theorem convertFile_owned {file : Go.File} {source : SourceFile} {symbols : SymbolTable}
    {options : ConvertOptions} {r : Converted} (hstrict : options.strict = true)
    (h : convertFile file source symbols options = .ok r) :
    (∀ i, ∀ c ∈ r.tree.children i, c < i) ∧ ∃ root, r.root = some root ∧ r.tree.Owned root := by
  obtain ⟨k, root, hroot, hr⟩ := convertFile_rooted h
  have hdescends := hr.sound.descends
  exact ⟨hdescends, root, hroot, hdescends.owned (hr.nodup_walk hstrict)⟩

theorem convertFile_owned_commentedFile :
    ∃ r, convertFile commentedFile commentedSource .empty ⟨true, false⟩ = .ok r ∧
      r.comments = [0] ∧ (∀ i, ∀ c ∈ r.tree.children i, c < i) ∧
      ∃ root, r.root = some root ∧ r.tree.Below root 0 ∧ r.tree.Owned root := by
  have hrun : (convertFile commentedFile commentedSource .empty ⟨true, false⟩).toOption.any (fun r =>
      r.comments = [0] ∧ r.root.any (fun root => 0 ∈ r.tree.walk root)) = true := by
    decide +kernel
  cases h : convertFile commentedFile commentedSource .empty ⟨true, false⟩ with
  | error e =>
    rw [h] at hrun
    cases hrun
  | ok r =>
    obtain ⟨hdescends, root, hroot, howned⟩ := convertFile_owned rfl h
    simp only [h, Except.toOption, Option.any_some, decide_eq_true_eq, hroot] at hrun
    have hbelow := (show r.tree.Descends from hdescends).mem_walk.mp hrun.2
    exact ⟨r, rfl, hrun.1, hdescends, root, hroot, hbelow, howned⟩

end LosslessGo
