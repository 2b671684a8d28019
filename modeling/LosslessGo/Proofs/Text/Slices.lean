import LosslessGo.Text.Slice

/-!
# Parts of a text

A slice is a part of the text between two others (`exists_append_of_slice?`, `slice?_append`), and a word
that stands at the start of a text is its first part (`exists_append_of_spells`, `spells_append`).
-/

namespace LosslessGo.Text

variable {s u w : String} {a b : Nat}

theorem slice?_append (before u after : String) :
    slice? (before ++ u ++ after) before.utf8ByteSize (before ++ u).utf8ByteSize = some u := by
  have hle : before.utf8ByteSize ≤ (before ++ u).utf8ByteSize := by
    rw [String.utf8ByteSize_append]
    exact Nat.le_add_right _ _
  have hstart : String.Pos.Raw.IsValid (before ++ u ++ after) ⟨before.utf8ByteSize⟩ := by
    rw [String.append_assoc]
    exact String.Pos.Raw.isValid_rawEndPos.append_right _
  have hstop : String.Pos.Raw.IsValid (before ++ u ++ after) ⟨(before ++ u).utf8ByteSize⟩ :=
    String.Pos.Raw.isValid_rawEndPos.append_right _
  obtain ⟨hslice, hcopy⟩ :
      ∃ h, ((before ++ u ++ after).slice ⟨_, hstart⟩ ⟨_, hstop⟩ h).copy = u :=
    String.copy_slice_eq_iff_splits.mpr ⟨before, after, ⟨String.append_assoc, rfl⟩, ⟨rfl, rfl⟩⟩
  rw [slice?, dif_pos ⟨hle, hstart, hstop⟩, String.extract_eq_copy_slice _ _ hslice, hcopy]

theorem exists_append_of_slice? (h : slice? s a b = some u) :
    ∃ before after, s = before ++ u ++ after ∧ before.utf8ByteSize = a ∧
      (before ++ u).utf8ByteSize = b := by
  unfold slice? at h
  split at h
  · rename_i hvalid
    obtain rfl := Option.some.inj h
    obtain ⟨before, after, hstart, hstop⟩ := String.copy_slice_eq_iff_splits.mp
      ⟨hvalid.1, (String.extract_eq_copy_slice ⟨⟨a⟩, hvalid.2.1⟩ ⟨⟨b⟩, hvalid.2.2⟩ hvalid.1).symm⟩
    refine ⟨before, after, hstop.eq_append, ?_, ?_⟩
    · exact (congrArg String.Pos.Raw.byteIdx hstart.offset_eq_rawEndPos).symm
    · exact (congrArg String.Pos.Raw.byteIdx hstop.offset_eq_rawEndPos).symm
  · cases h

/-- First parts of one size are equal. -/
theorem eq_of_append_eq {u' w' : String} (h : u ++ w = u' ++ w')
    (hsize : u.utf8ByteSize = u'.utf8ByteSize) : u = u' := by
  have hsplits := String.Pos.splits_ofEqAppend h
  have hoffset := hsplits.offset_eq_rawEndPos.trans (congrArg String.Pos.Raw.mk hsize.symm)
  exact (hsplits.eq_left ⟨rfl, hoffset⟩).symm

theorem exists_append_of_spells (h : spells s 0 w = true) : ∃ rest, s = w ++ rest := by
  have hbyte : ∀ k < w.utf8ByteSize, byteAt? s k = byteAt? w k := by
    simpa [spells] using h
  have hle : w.utf8ByteSize ≤ s.utf8ByteSize := by
    refine Nat.le_of_not_lt fun hlt => Nat.lt_irrefl s.utf8ByteSize ?_
    rw [← byteAt?_isSome_iff, hbyte _ hlt, byteAt?_isSome_iff]
    exact hlt
  have hprefix : s.toByteArray.extract 0 w.utf8ByteSize = w.toByteArray := by
    refine ByteArray.ext_getElem ?_ fun k hk hk' => ?_
    · simpa using Nat.min_eq_left hle
    · have hw : k < w.utf8ByteSize := by simpa using hk'
      have hs : k < s.utf8ByteSize := Nat.lt_of_lt_of_le hw hle
      have hk := hbyte k hw
      simp only [byteAt?, String.Pos.Raw.lt_iff, String.byteIdx_rawEndPos, hw, hs, dif_pos,
        Option.some.injEq, String.getUTF8Byte_eq_getElem] at hk
      simpa [ByteArray.getElem_extract] using hk
  have hvalid : String.Pos.Raw.IsValid s ⟨w.utf8ByteSize⟩ := by
    rw [String.Pos.Raw.isValid_iff_isValidUTF8_extract_zero, hprefix]
    exact ⟨hle, w.isValidUTF8⟩
  let p : s.Pos := ⟨_, hvalid⟩
  have hleft : (s.sliceTo p).copy = w := by
    rw [← String.toByteArray_inj, p.splits.toByteArray_left_eq, ← hprefix]
  exact ⟨(s.sliceFrom p).copy, by rw [← hleft]; exact p.splits.eq_append⟩

theorem spells_append (w rest : String) : spells (w ++ rest) 0 w = true := by
  rw [spells, List.all_eq_true]
  intro k hk
  have hw : k < w.utf8ByteSize := List.mem_range.mp hk
  have hs : k < (w ++ rest).utf8ByteSize := by
    rw [String.utf8ByteSize_append]
    exact Nat.lt_add_right _ hw
  rw [Nat.zero_add, beq_iff_eq]
  simp only [byteAt?, String.Pos.Raw.lt_iff, String.byteIdx_rawEndPos, hw, hs, dif_pos,
    String.getUTF8Byte_eq_getElem, String.toByteArray_append]
  rw [ByteArray.getElem_append_left]

end LosslessGo.Text
