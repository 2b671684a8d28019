import LosslessGo.Proofs.Draft.Makes

/-!
# What a step owns

Before anything else a draft has leaves of comments, its first nodes (`Draft.Based`). A step adds nodes
behind them. All that it adds is below its results, each node once, whatever was gathered or left out
on the way.

* `Draft.Owns`: what is below the results of a step, and how the fields of new nodes fit in.
* `Owns.trans`: two steps, one after the other.
* `Owns.takes`: children are gathered.
* `Owns.push`: a node over the results of a step.
-/

namespace LosslessGo

open scoped List
open Go (Key)

variable {set : Setting} {d d' d'' d₁ d₂ : Draft} {xs ys : List NodeId} {k : Nat} {i : NodeId}
  {n : Node}

/-- The fields of a node at place `i` past the first `k` stand in order and have names that need no
quoting. They refer to older nodes that are neither comments nor the end of the file, and share out what
is below the children. -/
structure Node.Formed (t : Tree) (k i : Nat) (n : Node) : Prop where
  offset_lt : n.isListed = true → n.offset < n.stop
  ordered : n.fields.Ordered
  names : ∀ e ∈ n.fields.entries, IsPlainName e.1 ∨ e.1 = Node.flowIdName
  refs : ∀ c ∈ n.refs, c < i ∧ (t.node c).isVisible = true
  shared : n.refs.flatMap (t.later k) <+~ n.children.flatMap (t.later k)

/-- A node without references is formed where its names are plain. -/
theorem Node.Formed.of_entries {t : Tree} {i : Nat} {entries : List (String × FieldValue)}
    (hfields : n.fields = .ofList entries)
    (hentries : ∀ e ∈ entries, IsPlainName e.1 ∧ e.2.refs = [])
    (hoffset : n.isListed = true → n.offset < n.stop) : n.Formed t k i := by
  have hrefs : n.refs = [] := by
    refine List.flatMap_eq_nil_iff.mpr fun e he => ?_
    rw [hfields] at he
    exact (hentries e (Fields.mem_ofList he)).2
  refine ⟨hoffset, hfields ▸ Fields.ordered_ofList, fun e he => ?_, by simp [hrefs], ?_⟩
  · rw [hfields] at he
    exact .inl (hentries e (Fields.mem_ofList he)).1
  · rw [hrefs]
    exact List.nil_subperm

/-- The fields of tokens refer to nothing. -/
theorem tokenFields_entries (label : String) :
    ∀ e ∈ [(Node.nativeKindName, nativeKindValue label)], IsPlainName e.1 ∧ e.2.refs = [] := by
  rw [List.forall_mem_singleton, nativeKindValue]
  refine ⟨by simp [Node.nativeKindName], ?_⟩
  split <;> rfl

theorem Node.Formed.grows {t t' : Tree} {i : Nat} (h : n.Formed t k i) (hg : t.Grows t')
    (hi : i ≤ t.size) (hchildren : ∀ c ∈ n.children, c < t.size) : n.Formed t' k i := by
  have hlt : ∀ c ∈ n.refs, c < t.size := fun c hc => (h.refs c hc).1.trans_le hi
  refine ⟨h.offset_lt, h.ordered, h.names, fun c hc => ?_, ?_⟩
  · rw [hg.node_eq c (hlt c hc)]
    exact h.refs c hc
  · rw [hg.flatMap_later hlt, hg.flatMap_later hchildren]
    exact h.shared

theorem Node.IsText.formed {t : Tree} {i : Nat} (h : n.IsText) : n.Formed t k i := by
  obtain ⟨label, hfields⟩ := h.fields_eq
  exact .of_entries hfields (tokenFields_entries label) fun _ => h.offset_lt

namespace Draft

/-- The first `k` nodes are hidden leaves, and comments are among them. Children are older than their
parents. -/
structure Based (k : Nat) (d : Draft) : Prop where
  le_size : k ≤ d.tree.size
  hidden : ∀ i < k, (d.tree.node i).isVisible = false
  bare : ∀ i < k, d.tree.children i = []
  comments : ∀ c ∈ d.comments.toList, c < k
  descends : d.tree.Descends

/-- The token leaves among the nodes that `d'` has and `d` has not. -/
def addedTokens (d d' : Draft) : List NodeId :=
  (d.added d').filter fun i => (d'.tree.node i).isListed

/-- A step adds nodes with results `xs`. The new nodes are those below the results, each once. -/
structure Owns (k : Nat) (d : Draft) (xs : List NodeId) (d' : Draft) : Prop where
  grows : d.Grows d'
  based : d'.Based k
  lt_size : ∀ x ∈ xs, x < d'.tree.size
  perm : xs.flatMap (d'.tree.later k) ~ d.added d'
  tokens_eq : d'.tokens.toList = d.tokens.toList ++ d.addedTokens d'
  formed : ∀ i ∈ d.added d', (d'.tree.node i).Formed d'.tree k i

namespace Based

/-- Nodes are added whose children are older. -/
theorem grows (h : d.Based k) (hg : d.Grows d')
    (hnew : ∀ i ∈ d.added d', ∀ c ∈ d'.tree.children i, c < i) : d'.Based k := by
  refine ⟨h.le_size.trans hg.tree.size_le, fun i hi => ?_, fun i hi => ?_, ?_, fun i c hc => ?_⟩
  · rw [hg.tree.node_eq i (hi.trans_le h.le_size)]
    exact h.hidden i hi
  · rw [hg.tree.children_eq (hi.trans_le h.le_size)]
    exact h.bare i hi
  · rw [hg.comments_eq]
    exact h.comments
  · by_cases hlt : i < d.tree.size
    · rw [hg.tree.children_eq hlt] at hc
      exact h.descends i c hc
    · exact hnew i (mem_added.mpr ⟨Nat.le_of_not_lt hlt, Tree.Grows.lt_size_of_child hc⟩) c hc

/-- Visible nodes are none of the first. -/
theorem le_of_visible (h : d.Based k) {i : NodeId} (hi : (d.tree.node i).isVisible = true) :
    k ≤ i := by
  by_contra hlt
  rw [h.hidden i (Nat.lt_of_not_le hlt)] at hi
  cases hi

theorem later_of_bare (h : d.Based k) {i : NodeId} (hk : k ≤ i) (hi : d.tree.children i = []) :
    d.tree.later k i = [i] := by
  rw [h.descends.later_eq hk, hi, List.flatMap_nil]

end Based

theorem addedTokens_append (hg : d.Grows d') (hg' : d'.Grows d'') :
    d.addedTokens d' ++ d'.addedTokens d'' = d.addedTokens d'' := by
  have hold : d.addedTokens d' = (d.added d').filter fun i => (d''.tree.node i).isListed :=
    List.filter_congr fun i hi => by rw [hg'.tree.node_eq i (mem_added.mp hi).2]
  rw [hold, addedTokens, addedTokens, ← List.filter_append,
    added_append hg.tree.size_le hg'.tree.size_le]

namespace Owns

theorem refl (h : d.Based k) : d.Owns k [] d := by
  have hadded : d.added d = [] := added_of_size_eq rfl
  refine ⟨.refl d, h, by simp, by simp [hadded], by simp [addedTokens, hadded], by simp [hadded]⟩

/-- What was formed stays so. -/
theorem formed_grows (h : d.Owns k xs d') (hg : d'.Grows d'') {i : NodeId} (hi : i ∈ d.added d') :
    (d''.tree.node i).Formed d''.tree k i := by
  have hlt := (mem_added.mp hi).2
  rw [hg.tree.node_eq i hlt]
  exact (h.formed i hi).grows hg.tree hlt.le fun c hc => (h.based.descends i c hc).trans hlt

theorem trans (h : d.Owns k xs d') (h' : d'.Owns k ys d'') : d.Owns k (xs ++ ys) d'' := by
  have hadded := added_append h.grows.tree.size_le h'.grows.tree.size_le
  refine ⟨h.grows.trans h'.grows, h'.based, fun x hx => ?_, ?_, ?_, fun i hi => ?_⟩
  · rcases List.mem_append.mp hx with hx | hx
    · exact (h.lt_size x hx).trans_le h'.grows.tree.size_le
    · exact h'.lt_size x hx
  · rw [List.flatMap_append, h'.grows.tree.flatMap_later h.lt_size, ← hadded]
    exact h.perm.append h'.perm
  · rw [h'.tokens_eq, h.tokens_eq, List.append_assoc, addedTokens_append h.grows h'.grows]
  · rw [← hadded] at hi
    rcases List.mem_append.mp hi with hi | hi
    · exact h.formed_grows h'.grows hi
    · exact h'.formed i hi

/-- Children are gathered that were made before. -/
theorem takes {f f' : Filling} (h : d.Owns k (f.children.toList ++ (xs ++ ys)) f.draft)
    (ht : f.Takes xs f') : d.Owns k (f'.children.toList ++ ys) f'.draft := by
  have hbare : ∀ i ∈ f.draft.added f'.draft, f'.draft.tree.children i = [] :=
    fun i hi => (ht.text i hi).children_eq
  have hbased : f'.draft.Based k :=
    h.based.grows ht.grows fun i hi c hc => by simp [hbare i hi] at hc
  have hadded := added_append h.grows.tree.size_le ht.grows.tree.size_le
  obtain ⟨cs, hcs, hperm⟩ := ht.perm
  have hcomment : ∀ c ∈ cs, c < k := fun c hc => h.based.comments c (hcs c hc)
  have hnew : (f.draft.added f'.draft).flatMap (f'.draft.tree.later k) = f.draft.added f'.draft := by
    rw [List.flatMap_congr fun i hi => hbased.later_of_bare
      (h.based.le_size.trans (mem_added.mp hi).1) (hbare i hi), List.flatMap_singleton']
  refine ⟨h.grows.trans ht.grows, hbased, fun i hi => ?_, ?_, ?_, fun i hi => ?_⟩
  · rcases List.mem_append.mp hi with hi | hi
    · rcases List.mem_append.mp (hperm.mem_iff.mp hi) with hi | hi
      · rcases List.mem_append.mp hi with hi | hi
        · exact (h.lt_size i (by rw [← List.append_assoc]; exact List.mem_append_left _ hi)).trans_le
            ht.grows.tree.size_le
        · exact (hcomment i hi).trans_le hbased.le_size
      · exact (mem_added.mp hi).2
    · exact (h.lt_size i (by simp [hi])).trans_le ht.grows.tree.size_le
  · have hgathered : (f'.children.toList ++ ys).flatMap (f'.draft.tree.later k) ~
        (f.children.toList ++ (xs ++ ys)).flatMap (f'.draft.tree.later k) ++
          f.draft.added f'.draft := by
      have hnil : cs.flatMap (f'.draft.tree.later k) = [] :=
        List.flatMap_eq_nil_iff.mpr fun c hc => Tree.later_of_lt (hcomment c hc)
      rw [List.flatMap_append]
      refine ((hperm.flatMap_right _).append_right _).trans ?_
      simp only [List.flatMap_append, hnil, hnew, List.nil_append, List.append_assoc]
      exact ((List.perm_append_comm).append_left _).append_left _
    rw [ht.grows.tree.flatMap_later h.lt_size] at hgathered
    rw [← hadded]
    exact hgathered.trans (h.perm.append_right _)
  · have hlisted : f.draft.addedTokens f'.draft = f.draft.added f'.draft :=
      List.filter_eq_self.mpr fun i hi => (ht.text i hi).listed
    rw [ht.tokens_eq, h.tokens_eq, List.append_assoc, ← hlisted, addedTokens_append h.grows ht.grows]
  · rw [← hadded] at hi
    rcases List.mem_append.mp hi with hi | hi
    · exact h.formed_grows ht.grows hi
    · exact (ht.text i hi).formed

/-- A node over the results is added. -/
theorem push (h : d.Owns k xs d₁) (htree : d₂.tree = d₁.tree.push n)
    (hcomments : d₂.comments = d₁.comments) (hchildren : n.children = xs)
    (htokens : d₂.tokens = if n.isListed then d₁.tokens.push d₁.tree.size else d₁.tokens)
    (hn : n.Formed d₁.tree k d₁.tree.size) : d.Owns k [d₁.tree.size] d₂ := by
  have hg : d₁.Grows d₂ := ⟨htree ▸ .push _ _, hcomments⟩
  have hsize : d₂.tree.size = d₁.tree.size + 1 := by rw [htree, Tree.size_push]
  have hnode : d₂.tree.node d₁.tree.size = n := by rw [htree, Tree.node_push_size]
  have hnew : d₁.added d₂ = [d₁.tree.size] := added_of_size_succ hsize
  have hadded := added_append h.grows.tree.size_le hg.tree.size_le
  have hbased : d₂.Based k := by
    refine h.based.grows hg fun i hi c hc => ?_
    rw [hnew, List.mem_singleton] at hi
    subst hi
    rw [Tree.children, hnode, hchildren] at hc
    exact h.lt_size c hc
  refine ⟨h.grows.trans hg, hbased, ?_, ?_, ?_, fun i hi => ?_⟩
  · simp [hsize]
  · rw [List.flatMap_singleton, hbased.descends.later_eq (h.based.le_size), Tree.children, hnode,
      hchildren, hg.tree.flatMap_later h.lt_size, ← hadded, hnew]
    exact ((h.perm.cons _).trans (List.perm_append_singleton _ _).symm)
  · have hlisted : d₁.addedTokens d₂ = if n.isListed then [d₁.tree.size] else [] := by
      rw [addedTokens, hnew, List.filter_singleton, hnode, cond_eq_ite]
    rw [← addedTokens_append h.grows hg, ← List.append_assoc, ← h.tokens_eq, htokens, hlisted]
    split <;> simp
  · rw [← hadded, hnew] at hi
    rcases List.mem_append.mp hi with hi | hi
    · exact h.formed_grows hg hi
    · rw [List.mem_singleton.mp hi, hnode]
      refine hn.grows hg.tree (Nat.le_refl _) ?_
      rw [hchildren]
      exact h.lt_size

/-- A leaf is added. -/
theorem leaf (h : d.Based k) (hchildren : n.children = []) (hn : n.Formed d.tree k d.tree.size) :
    d.Owns k [d.tree.size] (d.add n) :=
  (refl h).push rfl rfl hchildren rfl hn

/-- What is below the results of a step is below those of a step that goes on. -/
theorem subperm (h : d.Owns k xs d₁) (h' : d.Owns k ys d₂) (hg : d₁.Grows d₂) :
    xs.flatMap (d₂.tree.later k) <+~ ys.flatMap (d₂.tree.later k) := by
  have hadded := added_append h.grows.tree.size_le hg.tree.size_le
  rw [hg.tree.flatMap_later h.lt_size]
  refine h.perm.subperm.trans (.trans ?_ h'.perm.symm.subperm)
  rw [← hadded]
  exact (List.sublist_append_left _ _).subperm

/-- No node is a result twice. -/
theorem nodup (h : d.Owns k xs d') : (xs.filter (k ≤ ·)).Nodup :=
  (h.perm.nodup_iff.mpr List.nodup_range').sublist (d'.tree.filter_sublist_later xs)

/-- A result refers to no node twice. -/
theorem nodup_refs (h : d.Owns k [i] d') (hi : k ≤ i) : (d'.tree.node i).refs.Nodup := by
  have hlater : (d'.tree.later k i).Perm (d.added d') := by simpa using h.perm
  have hmem : i ∈ d.added d' := hlater.subset (Tree.self_mem_later hi)
  have hformed := h.formed i hmem
  have hfilter : (d'.tree.node i).refs.filter (k ≤ ·) = (d'.tree.node i).refs :=
    List.filter_eq_self.mpr fun c hc => decide_eq_true (h.based.le_of_visible (hformed.refs c hc).2)
  have hnodup : (d'.tree.later k i).Nodup := hlater.nodup_iff.mpr List.nodup_range'
  have hbelow : ((d'.tree.node i).refs.flatMap (d'.tree.later k)).Nodup := by
    obtain ⟨l, hperm, hsub⟩ := hformed.shared
    exact hperm.nodup_iff.mp
      (hnodup.sublist (hsub.trans (h.based.descends.children_later_sublist i)))
  exact hfilter ▸ hbelow.sublist (d'.tree.filter_sublist_later _)

/-- Hidden results have nothing below them but comments. -/
theorem of_visible (h : d.Owns k xs d') (hxs : ∀ x ∈ xs, (d'.tree.node x).isVisible = true ∨ x < k) :
    d.Owns k (d'.tree.visible xs) d' := by
  have hperm : (d'.tree.visible xs).flatMap (d'.tree.later k) = xs.flatMap (d'.tree.later k) := by
    rw [Tree.visible]
    clear h
    induction xs with
    | nil => rfl
    | cons x xs ih =>
      obtain ⟨hx, hxs⟩ := List.forall_mem_cons.mp hxs
      rw [List.filter_cons, List.flatMap_cons, ← ih hxs]
      split
      · rw [List.flatMap_cons]
      · rw [Tree.later_of_lt (hx.resolve_left ‹_›), List.nil_append]
  exact { h with
    lt_size := fun x hx => h.lt_size x (List.mem_filter.mp hx).1
    perm := hperm ▸ h.perm }

/-- A function that is entered and left makes no difference. -/
theorem leave (h : d.enter.Owns k xs d') : d.Owns k xs d'.leave :=
  ⟨⟨h.grows.tree, h.grows.comments_eq⟩,
    ⟨h.based.le_size, h.based.hidden, h.based.bare, h.based.comments, h.based.descends⟩,
    h.lt_size, h.perm, h.tokens_eq, h.formed⟩

/-- A node is made over the results. -/
theorem node {origin : Option Key} {type : NodeType} {fields : Fields} {x : Option NodeId}
    (h : d.Owns k xs d₁) (hmade : NodeMade set d₁ origin type fields xs x d₂)
    (hordered : fields.Ordered) (hplain : ∀ e ∈ fields.entries, IsPlainName e.1)
    (hvisible : ∀ c ∈ fields.refs, (d₁.tree.node c).isVisible = true)
    (hshared : fields.refs.flatMap (d₁.tree.later k) <+~ xs.flatMap (d₁.tree.later k)) :
    d₁.Grows d₂ ∧ d.Owns k x.toList d₂ ∧ ∀ i ∈ x, (d₂.tree.node i).isVisible = true := by
  have hflow : fields.get? Node.flowIdName = none := by
    cases hget : fields.get? Node.flowIdName with
    | none => rfl
    | some v => exact absurd rfl (ne_flowIdName (hplain _ (Fields.mem_of_get? hget)))
  rcases hmade.tops hflow with ⟨rfl, rfl, rfl⟩ | ⟨rfl, n, ht⟩
  · exact ⟨.refl _, h, by simp⟩
  have hrefs : ∀ c ∈ n.refs, c < d₁.tree.size ∧ (d₁.tree.node c).isVisible = true := by
    intro c hc
    have hcv := hvisible c (ht.refs_subperm.subset hc)
    have hmem : c ∈ fields.refs.flatMap (d₁.tree.later k) := List.mem_flatMap.mpr
      ⟨c, ht.refs_subperm.subset hc, Tree.self_mem_later (h.based.le_of_visible hcv)⟩
    obtain ⟨x, hx, hcx⟩ := List.mem_flatMap.mp (hshared.subset hmem)
    exact ⟨(Tree.le_of_mem_walk (Tree.mem_later.mp hcx).1).trans_lt (h.lt_size x hx), hcv⟩
  have hformed : n.Formed d₁.tree k d₁.tree.size := by
    refine ⟨ht.offset_lt, ht.ordered hordered, fun e he => (ht.entries e he).imp_left (hplain e),
      hrefs, ?_⟩
    rw [ht.children_eq]
    exact (subperm_flatMap ht.refs_subperm _).trans hshared
  refine ⟨ht.grows, h.push ht.tree_eq ht.comments_eq ht.children_eq ht.tokens_eq hformed, ?_⟩
  rintro i ⟨⟩
  rw [ht.node_eq]
  exact ht.visible

end Owns

end Draft

end LosslessGo
