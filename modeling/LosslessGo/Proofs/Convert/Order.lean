import LosslessGo.Proofs.Convert.Coverage

/-!
# Leaves that share no text

In strict mode the children of a node are in order and within its span, and no two leaves share a
byte, unless a word of a gap reaches into the child behind the gap. A gap shows the words of
`missingTokens` by the text at its place alone, even where the text goes on past its end.

* `Tree.WholeWords` rules such a word out.
* `convertFile_ordered_iff`: the children of all nodes are in order just where it does, and the
  leaves share no byte just where it does.
* `convertFile_overlapping`: a file in strict mode whose leaves do share text.
-/

namespace LosslessGo

variable {set : Setting} {t : Tree} {root : NodeId}

namespace Tree

/-- Below `root`, children stand one behind the other. -/
def Ordered (t : Tree) (root : NodeId) : Prop :=
  ∀ i, t.Below root i → ((t.children i).map t.node).IsChain fun n m => n.stop ≤ m.offset

/-- Below `root`, children stand within the span of their parent. -/
def Nested (t : Tree) (root : NodeId) : Prop :=
  ∀ i, t.Below root i → ∀ c ∈ t.children i,
    (t.node i).offset ≤ (t.node c).offset ∧ (t.node c).stop ≤ (t.node i).stop

/-- Below `root`, two leaves have no byte in common. -/
def Disjoint (t : Tree) (root : NodeId) : Prop :=
  ∀ a b, t.Below root a → t.Below root b → (t.node a).isLeaf = true → (t.node b).isLeaf = true →
    a ≠ b → ∀ k, ¬((t.node a).offset ≤ k ∧ k < (t.node a).stop ∧
      (t.node b).offset ≤ k ∧ k < (t.node b).stop)

/-- Below `root`, no word of a gap reaches into the child behind it. -/
def WholeWords (source : String) (t : Tree) (root : NodeId) : Prop :=
  ∀ i, t.Below root i →
    ((t.children i).map t.node).IsChain fun n m => ¬n.CutAt source m.offset

end Tree

/-! ## Lists of siblings -/

namespace Node

variable {ns : List Node} {first last : Node}

/-- Siblings in order stand between the first and the last. -/
theorem within_of_chain (hchain : ns.IsChain fun n m => n.stop ≤ m.offset)
    (hle : ∀ n ∈ ns, n.offset ≤ n.stop) (hfirst : ns.head? = some first)
    (hlast : ns.getLast? = some last) :
    first.offset ≤ last.stop ∧ ∀ n ∈ ns, first.offset ≤ n.offset ∧ n.stop ≤ last.stop := by
  induction ns generalizing first with
  | nil => cases hfirst
  | cons n ns ih =>
    obtain rfl : n = first := by simpa using hfirst
    have hn := hle n (by simp)
    cases ns with
    | nil =>
      obtain rfl : n = last := by simpa using hlast
      simpa using hn
    | cons m ns =>
      obtain ⟨hnm, hchain⟩ := List.isChain_cons_cons.mp hchain
      obtain ⟨hm, hrest⟩ := ih hchain (fun n' h' => hle n' (by simp [h'])) rfl (by simpa using hlast)
      have hfst := hrest m (by simp)
      have hmle := hle m (by simp)
      refine ⟨by omega, ?_⟩
      rw [List.forall_mem_cons]
      refine ⟨by omega, fun n' h' => ?_⟩
      have := hrest n' h'
      omega

/-- Of siblings in order, each stands behind all before it. -/
theorem pairwise_of_chain (hchain : ns.IsChain fun n m => n.stop ≤ m.offset)
    (hle : ∀ n ∈ ns, n.offset ≤ n.stop) : ns.Pairwise fun n m => n.stop ≤ m.offset := by
  induction ns with
  | nil => exact .nil
  | cons n ns ih =>
    have hle' : ∀ m ∈ ns, m.offset ≤ m.stop := fun m hm => hle m (by simp [hm])
    refine .cons (fun m hm => ?_) (ih hchain.of_cons hle')
    cases ns with
    | nil => cases hm
    | cons m' ns =>
      obtain ⟨hnm, hchain⟩ := List.isChain_cons_cons.mp hchain
      have hlast := List.getLast?_eq_some_getLast (List.cons_ne_nil m' ns)
      have := ((within_of_chain hchain hle' rfl hlast).2 m hm).1
      omega

end Node

namespace Tree

/-! ## Order, nesting and disjointness -/

namespace Sound

variable {i j : NodeId}

theorem lt_of_below (h : t.Sound set) (hi : i < t.size) (hj : t.Below i j) : j < t.size := by
  induction hj with
  | refl => exact hi
  | tail hj hc ih =>
    rename_i k c
    rcases h k ih with hl | ⟨-, hlt⟩
    · rw [children, hl.children_eq] at hc
      cases hc
    · exact (hlt c hc).trans ih

/-- In strict mode, children are in order where no word is cut. -/
theorem ordered (h : t.Sound set) (hstrict : set.strict = true) (hroot : root < t.size)
    (hw : t.WholeWords set.source root) : t.Ordered root := by
  intro i hi
  rcases h i (h.lt_of_below hroot hi) with hl | ⟨hs, -⟩
  · simp [children, hl.children_eq]
  have hwhole := hw i hi
  have hchain := hs.chain
  rw [List.isChain_iff_getElem] at hwhole hchain ⊢
  intro k hk
  exact ((hchain k hk).ordered hstrict).resolve_right (hwhole k hk)

/-- A node starts where a leaf below it does. -/
theorem exists_leaf_at (h : t.Sound set) (hi : i < t.size) :
    ∃ j, t.Below i j ∧ (t.node j).IsLeafIn set ∧ (t.node j).offset = (t.node i).offset := by
  induction i using Nat.strongRecOn with
  | ind i ih =>
    rcases h i hi with hl | ⟨hs, hlt⟩
    · exact ⟨i, .refl t i, hl, rfl⟩
    obtain ⟨n, hn, hoff⟩ := Option.map_eq_some_iff.mp hs.offset_eq
    obtain ⟨c, hc, rfl⟩ := List.mem_map.mp (List.mem_of_head? hn)
    obtain ⟨j, hj, hleaf, hj'⟩ := ih c (hlt c hc) ((hlt c hc).trans hi)
    exact ⟨j, .head hc hj, hleaf, hj'.trans hoff⟩

end Sound

section Ordered

variable {i j : NodeId} (h : t.Sound set) (hroot : root < t.size) (ho : t.Ordered root)

include h hroot ho

theorem Ordered.offset_le (hi : t.Below root i) : (t.node i).offset ≤ (t.node i).stop := by
  induction i using Nat.strongRecOn with
  | ind i ih =>
    rcases h i (h.lt_of_below hroot hi) with hl | ⟨hs, hlt⟩
    · exact hl.offset_le
    obtain ⟨first, hfirst, hoff⟩ := Option.map_eq_some_iff.mp hs.offset_eq
    obtain ⟨last, hlast, hstop⟩ := Option.map_eq_some_iff.mp hs.stop_eq
    rw [← hoff, ← hstop]
    refine (Node.within_of_chain (ho i hi) (fun n hn => ?_) hfirst hlast).1
    obtain ⟨c, hc, rfl⟩ := List.mem_map.mp hn
    exact ih c (hlt c hc) (hi.child hc)

theorem Ordered.offset_le_of_mem (hi : t.Below root i) :
    ∀ n ∈ (t.children i).map t.node, n.offset ≤ n.stop := by
  intro n hn
  obtain ⟨c, hc, rfl⟩ := List.mem_map.mp hn
  exact ho.offset_le h hroot (hi.child hc)

theorem Ordered.nested : t.Nested root := by
  intro i hi c hc
  rcases h i (h.lt_of_below hroot hi) with hl | ⟨hs, -⟩
  · rw [children, hl.children_eq] at hc
    cases hc
  obtain ⟨first, hfirst, hoff⟩ := Option.map_eq_some_iff.mp hs.offset_eq
  obtain ⟨last, hlast, hstop⟩ := Option.map_eq_some_iff.mp hs.stop_eq
  rw [← hoff, ← hstop]
  exact (Node.within_of_chain (ho i hi) (ho.offset_le_of_mem h hroot hi) hfirst hlast).2 _
    (List.mem_map_of_mem hc)

theorem Ordered.within (hi : t.Below root i) (hj : t.Below i j) :
    (t.node i).offset ≤ (t.node j).offset ∧ (t.node j).stop ≤ (t.node i).stop := by
  induction hj with
  | refl => exact ⟨Nat.le_refl _, Nat.le_refl _⟩
  | tail hj hc ih =>
    have := ho.nested h hroot _ (hi.trans hj) _ hc
    omega

/-- Two children of a node stand one behind the other. -/
theorem Ordered.children_apart (hi : t.Below root i) {c c' : NodeId} (hc : c ∈ t.children i)
    (hc' : c' ∈ t.children i) (hne : c ≠ c') :
    (t.node c).stop ≤ (t.node c').offset ∨ (t.node c').stop ≤ (t.node c).offset := by
  have hpair := List.pairwise_map.mp
    (Node.pairwise_of_chain (ho i hi) (ho.offset_le_of_mem h hroot hi))
  rw [List.pairwise_iff_getElem] at hpair
  obtain ⟨p, hp, rfl⟩ := List.mem_iff_getElem.mp hc
  obtain ⟨q, hq, rfl⟩ := List.mem_iff_getElem.mp hc'
  rcases Nat.lt_trichotomy p q with hpq | rfl | hqp
  · exact .inl (hpair p q hp hq hpq)
  · exact absurd rfl hne
  · exact .inr (hpair q p hq hp hqp)

theorem Ordered.disjoint : t.Disjoint root := by
  suffices hbelow : ∀ i, t.Below root i → ∀ a b, t.Below i a → t.Below i b →
      (t.node a).isLeaf = true → (t.node b).isLeaf = true → a ≠ b →
      (t.node a).stop ≤ (t.node b).offset ∨ (t.node b).stop ≤ (t.node a).offset by
    intro a b ha hb hla hlb hne k hk
    have := hbelow root (.refl t root) a b ha hb hla hlb hne
    omega
  intro i hi a b ha hb hla hlb hne
  induction i using Nat.strongRecOn with
  | ind i ih =>
    rcases h i (h.lt_of_below hroot hi) with hl | ⟨hs, hlt⟩
    · have hnil : t.children i = [] := hl.children_eq
      rcases ha.cases_child with rfl | ⟨c, hc, -⟩
      · rcases hb.cases_child with rfl | ⟨c, hc, -⟩
        · exact absurd rfl hne
        · simp [hnil] at hc
      · simp [hnil] at hc
    rcases ha.cases_child with rfl | ⟨c, hc, ha⟩
    · simp [hs.isLeaf_eq] at hla
    rcases hb.cases_child with rfl | ⟨c', hc', hb⟩
    · simp [hs.isLeaf_eq] at hlb
    by_cases hcc : c = c'
    · subst hcc
      exact ih c (hlt c hc) (hi.child hc) ha hb
    have hwa := ho.within h hroot (hi.child hc) ha
    have hwb := ho.within h hroot (hi.child hc') hb
    rcases ho.children_apart h hroot hi hc hc' hcc with hlt' | hlt'
    · exact .inl (by omega)
    · exact .inr (by omega)

end Ordered

/-- Children in order cut no word. -/
theorem Ordered.wholeWords {source : String} (ho : t.Ordered root) : t.WholeWords source root :=
  fun i hi => (ho i hi).imp fun _ _ hle hcut => absurd hle (by have := hcut.lt_stop; omega)

/-- Where leaves share no byte, no word is cut. -/
theorem Disjoint.wholeWords (h : t.Sound set) (hroot : root < t.size) (hd : t.Disjoint root) :
    t.WholeWords set.source root := by
  intro i hi
  rw [List.isChain_map, List.isChain_iff_getElem]
  intro p hp hcut
  have ha : t.Below root (t.children i)[p] := hi.child (List.getElem_mem _)
  have hb : t.Below root (t.children i)[p + 1] := hi.child (List.getElem_mem _)
  obtain ⟨j, hj, hleaf, hoff⟩ := h.exists_leaf_at (h.lt_of_below hroot hb)
  have hbound := (h.bounds (h.lt_of_below hroot ha)).2
  have hlt := hcut.offset_lt
  have hlt' := hcut.lt_stop
  refine hd _ j ha (hb.trans hj) hcut.isLeaf hleaf.isLeaf ?_ (t.node j).offset ?_
  · intro he
    rw [he] at hlt
    omega
  · -- The leaf is not empty, since only the end of the source may be.
    have hle := hleaf.offset_le
    have hne : (t.node j).offset ≠ (t.node j).stop := fun he => by
      have := hleaf.stop_eq he
      omega
    omega

end Tree

/-! ## Converted files -/

/-- In strict mode, the children of the nodes of a file are in order, and its leaves share no byte,
just where no word of a gap is cut. Children are within the spans of their parents there. -/
theorem convertFile_ordered_iff {file : Go.File} {source : SourceFile} {symbols : SymbolTable}
    {options : ConvertOptions} {r : Converted}
    (h : convertFile file source symbols options = .ok r) (hstrict : options.strict = true) :
    ∃ root, r.root = some root ∧
      (r.tree.Ordered root ↔ r.tree.WholeWords source.text root) ∧
      (r.tree.Disjoint root ↔ r.tree.WholeWords source.text root) ∧
      (r.tree.WholeWords source.text root → r.tree.Nested root) := by
  obtain ⟨d, root, htree, hr, hs, hroot⟩ := convertFile_root h
  rw [htree]
  have hordered (hw : d.tree.WholeWords source.text root) : d.tree.Ordered root :=
    hs.tree.ordered hstrict hroot.lt_size hw
  refine ⟨root, hr, ⟨fun ho => ho.wholeWords, hordered⟩, ⟨fun hd => ?_, fun hw => ?_⟩, fun hw => ?_⟩
  · exact hd.wholeWords hs.tree hroot.lt_size
  · exact (hordered hw).disjoint hs.tree hroot.lt_size
  · exact (hordered hw).nested hs.tree hroot.lt_size

theorem convertFile_ordered_iff_commentedFile :
    ∃ r, convertFile commentedFile commentedSource .empty ⟨true, false⟩ = .ok r ∧
      ∃ root, r.root = some root ∧
        (r.tree.Ordered root ↔ r.tree.WholeWords commentedSource.text root) ∧
        (r.tree.Disjoint root ↔ r.tree.WholeWords commentedSource.text root) ∧
        (r.tree.WholeWords commentedSource.text root → r.tree.Nested root) := by
  have hok : (convertFile commentedFile commentedSource .empty ⟨true, false⟩).isOk = true := by
    decide +kernel
  cases h : convertFile commentedFile commentedSource .empty ⟨true, false⟩ with
  | error e =>
    rw [h] at hok
    cases hok
  | ok r => exact ⟨r, rfl, convertFile_ordered_iff h rfl⟩

/-- A declaration whose second name starts inside of the word `type`, as its source shows it. -/
def cutFile : Go.File :=
  ⟨0, ⟨8, "p", none⟩,
    [.gen ⟨10, .varWord, none, [.value [⟨14, "a", none⟩, ⟨16, "ype", none⟩] none []], none⟩], []⟩

/-- The source of `cutFile`. -/
def cutSource : SourceFile := .ofText "m.go" "package p\nvar atype"

/-- In strict mode leaves may share text. -/
theorem convertFile_overlapping :
    ∃ r root, convertFile cutFile cutSource .empty ⟨true, false⟩ = .ok r ∧ r.root = some root ∧
      ¬r.tree.Ordered root ∧ ¬r.tree.Disjoint root := by
  have hrun : (convertFile cutFile cutSource .empty ⟨true, false⟩).toOption.any (fun r =>
      r.root = some 10 ∧ r.tree.children 10 = [2, 8, 9] ∧ r.tree.children 8 = [7] ∧
        r.tree.children 7 = [3, 4, 6, 5] ∧ (r.tree.node 6).isLeaf = true ∧
        (r.tree.node 5).isLeaf = true ∧ (r.tree.node 6).offset ≤ 16 ∧ (r.tree.node 5).offset = 16 ∧
        16 < (r.tree.node 6).stop ∧ 16 < (r.tree.node 5).stop) = true := by
    decide +kernel
  cases h : convertFile cutFile cutSource .empty ⟨true, false⟩ with
  | error e =>
    rw [h] at hrun
    cases hrun
  | ok r =>
    rw [h] at hrun
    simp only [Except.toOption, Option.any_some, decide_eq_true_eq] at hrun
    obtain ⟨hroot, h₁₀, h₈, h₇, hl₆, hl₅, ho₆, ho₅, hs₆, hs₅⟩ := hrun
    have h7 : r.tree.Below 10 7 :=
      ((Tree.Below.refl r.tree 10).child (by simp [h₁₀] : 8 ∈ r.tree.children 10)).child
        (by simp [h₈])
    refine ⟨r, 10, rfl, hroot, fun hord => ?_, fun hdis => ?_⟩
    · have := hord 7 h7
      simp only [h₇, List.map_cons, List.isChain_cons_cons] at this
      omega
    · exact hdis 6 5 (h7.child (by simp [h₇])) (h7.child (by simp [h₇])) hl₆ hl₅ (by decide) 16
        ⟨ho₆, hs₆, ho₅.le, hs₅⟩

end LosslessGo
