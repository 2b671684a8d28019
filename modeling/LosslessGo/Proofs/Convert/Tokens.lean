import LosslessGo.Proofs.Convert.References

/-!
# The tokens of a file

The tokens that a file lists are the leaves of its tree that are tokens of the code, each once and in
the order of their offsets (`convertFile_tokens`). In strict mode that is the order in which a walk from
the root meets them.
-/

namespace LosslessGo

open scoped List

variable {set : Setting}

namespace Converted.Rooted

variable {r : Converted} {k : Nat} {root : NodeId} (h : r.Rooted set k root)

include h

theorem le_of_listed {i : NodeId} (hi : (r.tree.node i).isListed = true) : k ≤ i := by
  by_contra hlt
  have hvisible := Node.visible_of_listed hi
  rw [h.hidden (Nat.lt_of_not_le hlt)] at hvisible
  cases hvisible

/-- Tokens of the code hold text. -/
theorem isWord_of_listed {i : NodeId} (hi : (r.tree.node i).isListed = true) :
    (r.tree.node i).isWord = true := by
  have hlt : i < r.tree.size := by
    by_contra hle
    rw [Tree.node_of_size_le (Nat.le_of_not_lt hle)] at hi
    cases hi
  rw [Node.isWord_iff]
  refine ⟨?_, (h.formed i (h.le_of_listed hi) hlt).offset_lt hi⟩
  rw [Node.isListed] at hi
  rw [Node.isLeaf]
  cases htoken : (r.tree.node i).token with
  | none => simp [htoken] at hi
  | some token => rfl

/-- The tokens are those that a walk meets. -/
theorem tokens_perm_walk :
    r.tokens ~ (r.tree.walk root).filter fun i => (r.tree.node i).isListed := by
  have hlater : ((r.tree.later k root).filter fun i => (r.tree.node i).isListed) =
      (r.tree.walk root).filter fun i => (r.tree.node i).isListed := by
    rw [Tree.later, List.filter_filter]
    refine List.filter_congr fun i _ => ?_
    cases hi : (r.tree.node i).isListed with
    | false => rfl
    | true => simpa using h.le_of_listed hi
  exact hlater ▸ h.tokens_perm

theorem nodup_tokens : r.tokens.Nodup := h.tokens_perm.nodup_iff.mpr (h.nodup_later.filter _)

/-- In strict mode a walk meets tokens by offset. -/
theorem tokens_eq (hstrict : set.strict = true) :
    r.tokens = (r.tree.walk root).filter fun i => (r.tree.node i).isListed := by
  have hwords := (h.sound.spread hstrict h.lt_size).pairwise
  rw [List.flatMap_singleton] at hwords
  have hsub : ((r.tree.walk root).filter fun i => (r.tree.node i).isListed) <+
      r.tree.words root := by
    refine List.monotone_filter_right _ fun i hi => ?_
    exact h.isWord_of_listed hi
  have hlisted := hwords.sublist hsub
  -- Tokens of one offset are one token.
  have hapart : ((r.tree.walk root).filter fun i => (r.tree.node i).isListed).Pairwise fun i j =>
      (r.tree.node i).offset ≠ (r.tree.node j).offset := hlisted.imp Nat.ne_of_lt
  have : Std.Symm fun i j => (r.tree.node i).offset ≠ (r.tree.node j).offset := ⟨fun _ _ => Ne.symm⟩
  refine h.tokens_perm_walk.eq_of_pairwise (fun i j hi hj hij hji => ?_) h.tokens_sorted
    (hlisted.imp Nat.le_of_lt)
  by_contra hne
  exact hapart.forall (h.tokens_perm_walk.mem_iff.mp hi) hj hne (Nat.le_antisymm hij hji)

end Converted.Rooted

/-- The tokens of a file are the token leaves below its root, by offset. In strict mode they are in the
order of a walk. -/
theorem convertFile_tokens {file : Go.File} {source : SourceFile} {symbols : SymbolTable}
    {options : ConvertOptions} {r : Converted}
    (h : convertFile file source symbols options = .ok r) :
    ∃ root, r.root = some root ∧ r.tokens.Nodup ∧
      (∀ i, i ∈ r.tokens ↔ r.tree.Below root i ∧ (r.tree.node i).isListed = true) ∧
      (r.tokens.Pairwise fun i j => (r.tree.node i).offset ≤ (r.tree.node j).offset) ∧
      (options.strict = true →
        r.tokens = (r.tree.preorder root).filter fun i => (r.tree.node i).isListed) := by
  obtain ⟨k, root, hroot, hr⟩ := convertFile_rooted h
  refine ⟨root, hroot, hr.nodup_tokens, fun i => ?_, hr.tokens_sorted, fun hstrict => ?_⟩
  · rw [hr.tokens_perm_walk.mem_iff, List.mem_filter, hr.sound.descends.mem_walk]
  · rw [Tree.preorder_eq_walk]
    exact hr.tokens_eq hstrict

theorem convertFile_tokens_commentedFile :
    ∃ r, convertFile commentedFile commentedSource .empty ⟨true, false⟩ = .ok r ∧
      ∃ root, r.root = some root ∧ r.tokens.Nodup ∧
      (∀ i, i ∈ r.tokens ↔ r.tree.Below root i ∧ (r.tree.node i).isListed = true) ∧
      (r.tokens.Pairwise fun i j => (r.tree.node i).offset ≤ (r.tree.node j).offset) ∧
      (true = true → r.tokens = (r.tree.preorder root).filter fun i => (r.tree.node i).isListed) := by
  have hok : (convertFile commentedFile commentedSource .empty ⟨true, false⟩).isOk = true := by
    decide +kernel
  cases h : convertFile commentedFile commentedSource .empty ⟨true, false⟩ with
  | error e =>
    rw [h] at hok
    cases hok
  | ok r => exact ⟨r, rfl, convertFile_tokens h⟩

end LosslessGo
