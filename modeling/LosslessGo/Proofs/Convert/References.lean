import LosslessGo.Proofs.Convert.Graphs
import LosslessGo.Proofs.Convert.Ownership

/-!
# Fields form a tree

The fields of a node refer to nodes below it, and to no node twice: by fields alone the tree of a file
can be followed from its root to the leaves.

* `Tree.FormsTree`: what fields refer to, and how nodes are reached through them.
* `convertFile_references`: the fields of a file are so, in strict mode or not.
-/

namespace LosslessGo

open scoped List

variable {set : Setting}

/-- Through fields, nodes below `root` lead to older nodes below them, which are neither comments nor
the end of the file. No node is reached from `root` in two ways. -/
structure Tree.FormsTree (t : Tree) (root : NodeId) : Prop where
  under : ∀ i, t.Below root i → ∀ e ∈ (t.node i).fields.entries, ∀ c ∈ e.2.refs,
    t.Under i c ∧ c < i
  kind_ne : ∀ i, t.Below root i → ∀ e ∈ (t.node i).fields.entries, ∀ c ∈ e.2.refs,
    ∀ token ∈ (t.node c).token, token.kind ≠ .comment ∧ token.kind ≠ .endOfFile
  path_unique : ∀ j p q, t.FieldPath root p j → t.FieldPath root q j → p = q
  /-- Where all references are followed, each node is met once. -/
  nodup : (t.refWalk root).Nodup

theorem Tree.node_of_size_le {t : Tree} {i : NodeId} (h : t.size ≤ i) : t.node i = default := by
  have hout : t.nodes.size ≤ i := h
  rw [node, Array.getD_eq_getD_getElem?, Array.getElem?_eq_none hout]
  rfl

theorem Node.kind_ne_of_visible {n : Node} (h : n.isVisible = true) :
    ∀ token ∈ n.token, token.kind ≠ .comment ∧ token.kind ≠ .endOfFile := by
  intro token htoken
  have hkind : token.kind.isListed = true := by
    rw [isVisible, Option.mem_def.mp htoken] at h
    simpa using h
  cases hk : token.kind <;> simp_all [TokenKind.isListed]

namespace Converted.Rooted

variable {r : Converted} {k : Nat} {root : NodeId} (h : r.Rooted set k root)

include h

theorem hidden {i : NodeId} (hi : i < k) : (r.tree.node i).isVisible = false := by
  obtain ⟨offset, stop, hn⟩ := h.comment i hi
  obtain ⟨range, text, htoken, -⟩ := hn.token_eq
  simp [Node.isVisible, htoken, TokenKind.isListed]

/-- Comments refer to nothing. -/
theorem refs_comment {i : NodeId} (hi : i < k) : (r.tree.node i).refs = [] := by
  obtain ⟨offset, stop, hn⟩ := h.comment i hi
  refine List.flatMap_eq_nil_iff.mpr fun e he => ?_
  rw [hn.fields_eq] at he
  exact (tokenFields_entries "" e (Fields.mem_ofList he)).2

theorem ref_visible {i c : NodeId} (hc : c ∈ (r.tree.node i).refs) :
    (r.tree.node c).isVisible = true := by
  by_cases hi : i < k
  · simp [h.refs_comment hi] at hc
  by_cases hlt : i < r.tree.size
  · exact ((h.formed i (Nat.le_of_not_lt hi) hlt).refs c hc).2
  · rw [Tree.node_of_size_le (Nat.le_of_not_lt hlt)] at hc
    cases hc

theorem refsFit : r.tree.RefsFit k := by
  refine ⟨h.sound.descends, fun i hi c hc => ?_, fun i hi => ?_⟩
  · by_contra hlt
    have hvisible := h.ref_visible hc
    rw [h.hidden (Nat.lt_of_not_le hlt)] at hvisible
    cases hvisible
  · by_cases hlt : i < r.tree.size
    · exact (h.formed i hi hlt).shared
    · rw [Tree.children, Tree.node_of_size_le (Nat.le_of_not_lt hlt)]
      exact .refl _

/-- References lead to nodes below. -/
theorem under {i c : NodeId} (hc : c ∈ (r.tree.node i).refs) : r.tree.Under i c := by
  by_cases hi : i < k
  · simp [h.refs_comment hi] at hc
  · exact h.refsFit.under (Nat.le_of_not_lt hi) hc

theorem nodup_refWalk : (r.tree.refWalk root).Nodup := by
  obtain ⟨l, hperm, hsub⟩ := h.refsFit.refWalk_subperm h.le_root
  exact hperm.nodup_iff.mp (hsub.nodup h.nodup_later)

theorem formsTree : r.tree.FormsTree root := by
  have href {i : NodeId} {e : String × FieldValue} (he : e ∈ (r.tree.node i).fields.entries)
      {c : NodeId} (hc : c ∈ e.2.refs) : c ∈ (r.tree.node i).refs :=
    List.mem_flatMap.mpr ⟨e, he, hc⟩
  refine ⟨fun i _ e he c hc => ?_, fun i _ e he c hc => ?_, fun j p q hp hq => ?_, h.nodup_refWalk⟩
  · have hunder := h.under (href he hc)
    exact ⟨hunder, h.sound.descends.lt_of_under hunder⟩
  · exact Node.kind_ne_of_visible (h.ref_visible (href he hc))
  · exact h.refsFit.path_unique h.le_root h.nodup_refWalk hp hq

end Converted.Rooted

/-- The fields of a file form a tree over the one of its children. -/
theorem convertFile_references {file : Go.File} {source : SourceFile} {symbols : SymbolTable}
    {options : ConvertOptions} {r : Converted}
    (h : convertFile file source symbols options = .ok r) :
    ∃ root, r.root = some root ∧ r.tree.FormsTree root := by
  obtain ⟨k, root, hroot, hr⟩ := convertFile_rooted h
  exact ⟨root, hroot, hr.formsTree⟩

theorem convertFile_references_closureFile :
    ∃ r, convertFile closureFile closureSource .empty ⟨true, false⟩ = .ok r ∧
      ∃ root, r.root = some root ∧ r.tree.FormsTree root := by
  have hok : (convertFile closureFile closureSource .empty ⟨true, false⟩).isOk = true := by
    decide +kernel
  cases h : convertFile closureFile closureSource .empty ⟨true, false⟩ with
  | error e =>
    rw [h] at hok
    cases hok
  | ok r => exact ⟨r, rfl, convertFile_references h⟩

end LosslessGo
