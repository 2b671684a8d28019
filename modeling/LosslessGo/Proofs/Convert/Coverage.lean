import LosslessGo.Proofs.Convert.Root

/-!
# Nothing of a file is lost

Every byte of a file that is no blank lies in a leaf of its tree (`convertFile_covers`), except that
outside of strict mode text before the root is left out. `Tree.Sound.covers` says so of every node of
a sound tree: its span is covered by the leaves below it.
-/

namespace LosslessGo

variable {set : Setting}

/-- Nodes that adjoin each other cover the text from the start of the first to the end of the
last. -/
theorem Node.covers_of_chain {ns : List Node} {first last : Node} {k : Nat} {b : UInt8}
    (hchain : ns.IsChain (Node.Adjoins set)) (hfirst : ns.head? = some first)
    (hlast : ns.getLast? = some last) (hoff : first.offset ≤ k) (hstop : k < last.stop)
    (hb : Text.byteAt? set.source k = some b) (hblank : Text.isBlank b = false) :
    ∃ n ∈ ns, n.offset ≤ k ∧ k < n.stop := by
  induction ns generalizing first with
  | nil => cases hfirst
  | cons n ns ih =>
    obtain rfl : n = first := by simpa using hfirst
    by_cases hk : k < n.stop
    · exact ⟨n, by simp, hoff, hk⟩
    cases ns with
    | nil =>
      obtain rfl : n = last := by simpa using hlast
      exact absurd hstop hk
    | cons m ns =>
      obtain ⟨hadj, hchain⟩ := List.isChain_cons_cons.mp hchain
      have hm : m.offset ≤ k := by
        by_contra hlt
        have := hadj.blank k b (by omega) (by omega) hb
        simp [hblank] at this
      obtain ⟨n', hn', hcov⟩ := ih hchain rfl (by simpa using hlast) hm
      exact ⟨n', by simp [hn'], hcov⟩

/-- The leaves below a node cover its span. -/
theorem Tree.Sound.covers {t : Tree} (h : t.Sound set) {i : NodeId} (hi : i < t.size) {k : Nat}
    {b : UInt8} (hoff : (t.node i).offset ≤ k) (hstop : k < (t.node i).stop)
    (hb : Text.byteAt? set.source k = some b) (hblank : Text.isBlank b = false) :
    ∃ j, t.Below i j ∧ (t.node j).isLeaf = true ∧ (t.node j).offset ≤ k ∧ k < (t.node j).stop := by
  induction i using Nat.strongRecOn with
  | ind i ih =>
    rcases h i hi with hl | ⟨hs, hlt⟩
    · exact ⟨i, .refl t i, hl.isLeaf, hoff, hstop⟩
    obtain ⟨first, hfirst, hoff'⟩ := Option.map_eq_some_iff.mp hs.offset_eq
    obtain ⟨last, hlast, hstop'⟩ := Option.map_eq_some_iff.mp hs.stop_eq
    obtain ⟨n, hn, hcov⟩ := Node.covers_of_chain hs.chain hfirst hlast (hoff' ▸ hoff)
      (hstop' ▸ hstop) hb hblank
    obtain ⟨c, hc, rfl⟩ := List.mem_map.mp hn
    obtain ⟨j, hj, hleaf⟩ := ih c (hlt c hc) ((hlt c hc).trans hi) hcov.1 hcov.2
    exact ⟨j, .head hc hj, hleaf⟩

theorem Text.not_isBlank {b : UInt8} : isBlank b = false ↔ 32 < b := by
  simp [isBlank]

/-- A successful conversion ends with a sound tree that has a root. -/
theorem convertFile_root {file : Go.File} {source : SourceFile} {symbols : SymbolTable}
    {options : ConvertOptions} {r : Converted}
    (h : convertFile file source symbols options = .ok r) :
    ∃ d root, r.tree = d.tree ∧ r.root = some root ∧ d.Sound ⟨source, options.strict⟩ ∧
      IsRoot ⟨source, options.strict⟩ d root := by
  unfold convertFile at h
  split at h
  · rename_i x d hd
    cases h
    obtain ⟨hs, i, rfl, hroot⟩ := buildFile_yields x d hd
    exact ⟨d, i, rfl, rfl, hs, hroot⟩
  · cases h

/-- Every byte of the source from the root on that is no blank lies in a leaf below the root, and in
strict mode there are only blanks before the root. -/
def Converted.Covers (r : Converted) (source : String) (strict : Bool) : Prop :=
  ∃ root, r.root = some root ∧
    (∀ k b, (r.tree.node root).offset ≤ k → Text.byteAt? source k = some b → 32 < b →
      ∃ leaf, r.tree.Below root leaf ∧ (r.tree.node leaf).isLeaf = true ∧
        (r.tree.node leaf).offset ≤ k ∧ k < (r.tree.node leaf).stop) ∧
    (strict = true → ∀ k b, k < (r.tree.node root).offset → Text.byteAt? source k = some b → b ≤ 32)

/-- The tree of a file covers its source. -/
theorem convertFile_covers {file : Go.File} {source : SourceFile} {symbols : SymbolTable}
    {options : ConvertOptions} {r : Converted}
    (h : convertFile file source symbols options = .ok r) :
    r.Covers source.text options.strict := by
  obtain ⟨d, root, htree, hr, hs, hroot⟩ := convertFile_root h
  rw [Converted.Covers, htree]
  refine ⟨root, hr, fun k b hoff hb hblank => ?_, fun hstrict k b hk hb => ?_⟩
  · have hk : k < (d.tree.node root).stop := by
      rw [hroot.stop_eq]
      exact Text.lt_of_byteAt? hb
    exact hs.tree.covers hroot.lt_size hoff hk hb (Text.not_isBlank.mpr hblank)
  · simpa [Text.isBlank] using hroot.blank hstrict k b (Nat.zero_le k) hk hb

/-- A file with a comment, and with an equals sign that its syntax tree does not record. -/
def commentedFile : Go.File :=
  ⟨0, ⟨8, "p", none⟩,
    [.gen ⟨18, .varWord, none, [.value [⟨22, "x", none⟩] none [.literal ⟨26, .int, "1"⟩]], none⟩],
    [[⟨10, "// one"⟩]]⟩

/-- The source of `commentedFile`. -/
def commentedSource : SourceFile := .ofText "p.go" "package p // one\n\nvar x = 1\n"

theorem convertFile_covers_commentedFile :
    ∃ r, convertFile commentedFile commentedSource .empty ⟨true, false⟩ = .ok r ∧
      r.Covers commentedSource.text true := by
  have hok : (convertFile commentedFile commentedSource .empty ⟨true, false⟩).isOk = true := by
    decide +kernel
  cases h : convertFile commentedFile commentedSource .empty ⟨true, false⟩ with
  | error e =>
    rw [h] at hok
    cases hok
  | ok r => exact ⟨r, rfl, convertFile_covers h⟩

end LosslessGo
