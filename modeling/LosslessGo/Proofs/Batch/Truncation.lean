import LosslessGo.Proofs.Batch.Frame

/-!
# Batches that are cut off

A batch may end too early, at any byte: inside of a length, of a name or of a content, or in the middle of
a character. Every step of the reader looks for enough bytes before it looks at them, so that it finds
the batch cut off (`InputError.CutAt`) and reads neither a wrong length nor a wrong text.

* `readText_take`, `readEntry_take`: a text or an entry that is cut off.
* `exists_take_encode`: a batch that is cut off is some of its entries and a part of the next one.
* `decode_take`: what is read of it.
-/

namespace LosslessGo

/-- The error says that a batch ends at `stop`, before all bytes of a length or text have been read. -/
inductive InputError.CutAt (stop : Nat) : InputError → Prop where
  | intro {offset needed available : Nat} (hlt : available < needed) (hstop : offset + available = stop) :
    CutAt stop (.truncatedFrame offset needed available)

namespace Batch

variable {bytes : List UInt8} {offset k : Nat} {s : String} {e : Entry} {entries : List Entry}

/-! ## One entry -/

/-- A length that is cut off. -/
theorem readLength_of_length_lt (h : bytes.length < lengthSize) (offset : Nat) :
    readLength bytes offset = .error (.truncatedFrame offset lengthSize bytes.length) := by
  unfold readLength
  split
  · simp only [List.length_cons, lengthSize] at h
    omega
  · rfl

/-- A text that is cut off, in its length or behind it. -/
theorem readText_take (h : s.utf8ByteSize ≤ maxLength) (hk : k < (textBytes s).length) (offset : Nat) :
    ∃ err, readText ((textBytes s).take k) offset = .error err ∧ err.CutAt (offset + k) := by
  have hsize : ((textBytes s).take k).length = k := List.length_take_of_le (Nat.le_of_lt hk)
  by_cases hlength : k < lengthSize
  · have hread : readLength ((textBytes s).take k) offset =
        .error (.truncatedFrame offset lengthSize k) := by
      rw [readLength_of_length_lt (by rwa [hsize]), hsize]
    refine ⟨.truncatedFrame offset lengthSize k, ?_, .intro hlength rfl⟩
    simp only [readText, hread, bind, Except.bind]
  · have hle : lengthSize ≤ k := Nat.le_of_not_lt hlength
    have htake : (textBytes s).take k = lengthBytes s.utf8ByteSize ++ (bytesOf s).take (k - lengthSize) := by
      rw [textBytes, length_bytesOf, List.take_append, length_lengthBytes,
        List.take_of_length_le (by rwa [length_lengthBytes])]
    rw [length_textBytes] at hk
    have hbody : ((bytesOf s).take (k - lengthSize)).length = k - lengthSize := by
      rw [List.length_take, length_bytesOf]
      omega
    have hshort : ((bytesOf s).take (k - lengthSize)).length < s.utf8ByteSize := by omega
    refine ⟨.truncatedFrame (offset + lengthSize) s.utf8ByteSize (k - lengthSize), ?_,
      .intro (by omega) (by omega)⟩
    rw [htake, readText_of_readLength (readLength_lengthBytes h _ _), if_pos hshort, hbody]

/-- An entry that is cut off, in its name or behind it. -/
theorem readEntry_take (h : e.Fits) (hk : k < (entryBytes e).length) (offset : Nat) :
    ∃ err, readEntry ((entryBytes e).take k) offset = .error err ∧ err.CutAt (offset + k) := by
  rw [entryBytes, List.length_append] at hk
  by_cases hname : k < (textBytes e.name).length
  · obtain ⟨err, hread, hcut⟩ := readText_take h.name_le hname offset
    refine ⟨err, ?_, hcut⟩
    rw [entryBytes, List.take_append_of_le_length (Nat.le_of_lt hname)]
    simp only [readEntry, hread, bind, Except.bind]
  · have hle : (textBytes e.name).length ≤ k := Nat.le_of_not_lt hname
    obtain ⟨err, hread, hcut⟩ := readText_take h.content_le
      (k := k - (textBytes e.name).length) (by omega) (offset + (textBytes e.name).length)
    refine ⟨err, ?_, ?_⟩
    · rw [entryBytes, List.take_append, List.take_of_length_le hle]
      simp only [readEntry, readText_textBytes h.name_le, hread, bind, Except.bind]
    · rwa [Nat.add_assoc, Nat.add_sub_cancel' hle] at hcut

/-! ## Batches -/

/-- A batch that is cut off is some of its entries and a part of the next one, which may be empty. -/
theorem exists_take_encode (hk : k < (encode entries).length) :
    ∃ j e part, e ∈ entries ∧ part < (entryBytes e).length ∧
      k = (encode (entries.take j)).length + part ∧
      (encode entries).take k = encode (entries.take j) ++ (entryBytes e).take part := by
  induction entries generalizing k with
  | nil => exact absurd hk (Nat.not_lt_zero k)
  | cons e entries ih =>
    by_cases hfirst : k < (entryBytes e).length
    · refine ⟨0, e, k, List.mem_cons_self, hfirst, ?_, ?_⟩
      · rw [List.take_zero, encode, List.flatMap_nil, List.length_nil, Nat.zero_add]
      · rw [encode_cons, List.take_append_of_le_length (Nat.le_of_lt hfirst)]
        rfl
    · have hle : (entryBytes e).length ≤ k := Nat.le_of_not_lt hfirst
      rw [encode_cons, List.length_append] at hk
      obtain ⟨j, e', part, hmem, hpart, hsize, htake⟩ := ih (k := k - (entryBytes e).length) (by omega)
      refine ⟨j + 1, e', part, List.mem_cons_of_mem _ hmem, hpart, ?_, ?_⟩
      · rw [List.take_succ_cons, encode_cons, List.length_append]
        omega
      · rw [List.take_succ_cons, encode_cons, encode_cons, List.take_append,
          List.take_of_length_le hle, htake, List.append_assoc]

/-- What is read of a batch that is cut off: the entries before the cut where it is between two entries,
and otherwise the error that the batch ends there. -/
theorem decode_take (h : ∀ e ∈ entries, e.Fits) (hk : k < (encode entries).length) :
    (∀ j, k = (encode (entries.take j)).length →
      decode ((encode entries).take k) = .ok (entries.take j)) ∧
    ((∀ j, k ≠ (encode (entries.take j)).length) →
      ∃ offset needed available,
        decode ((encode entries).take k) = .error (.truncatedFrame offset needed available) ∧
        available < needed ∧ offset + available = k) := by
  constructor
  · rintro j rfl
    have hsplit : encode entries = encode (entries.take j) ++ encode (entries.drop j) := by
      rw [encode, encode, encode, ← List.flatMap_append, List.take_append_drop]
    rw [hsplit, List.take_left]
    exact decode_encode fun e he => h e (List.mem_of_mem_take he)
  · intro hinside
    obtain ⟨j, e, part, hmem, hpart, hsize, htake⟩ := exists_take_encode hk
    obtain ⟨err, hread, hcut⟩ := readEntry_take (h e hmem) hpart (encode (entries.take j)).length
    have hne : (entryBytes e).take part ≠ [] := by
      have hpos : part ≠ 0 := by
        rintro rfl
        exact hinside j hsize
      rw [ne_eq, List.take_eq_nil_iff, not_or]
      exact ⟨hpos, List.ne_nil_of_length_pos (by omega)⟩
    rw [← hsize] at hcut
    cases hcut with
    | @intro offset needed available hlt hstop =>
      refine ⟨offset, needed, available, ?_, hlt, hstop⟩
      rw [htake, decode, decodeFrom_append (fun e' he' => h e' (List.mem_of_mem_take he')), Nat.zero_add,
        decodeFrom_of_error hne hread]
      rfl

/-- Two entries, the second with a character of two bytes at its end. -/
def accentedEntries : List Entry := [⟨"a.go", "package a"⟩, ⟨"b.go", "// é"⟩]

theorem decode_take_accentedEntries :
    (∀ e ∈ accentedEntries, e.Fits) ∧ (encode accentedEntries).length = 38 ∧
      decode ((encode accentedEntries).take 21) = .ok [⟨"a.go", "package a"⟩] ∧
      ∃ offset needed available,
        decode ((encode accentedEntries).take 37) =
          .error (.truncatedFrame offset needed available) ∧
        available < needed ∧ offset + available = 37 := by
  have hfits : ∀ e ∈ accentedEntries, e.Fits := by
    simp only [accentedEntries, List.forall_mem_cons, List.not_mem_nil, false_imp_iff, implies_true,
      and_true]
    exact ⟨⟨by decide, by decide⟩, ⟨by decide, by decide⟩⟩
  have hsize : (encode accentedEntries).length = 38 := by decide +kernel
  refine ⟨hfits, hsize, ?_, ?_⟩
  · exact (decode_take hfits (k := 21) (by omega)).1 1 (by decide +kernel)
  · refine (decode_take hfits (k := 37) (by omega)).2 fun j => ?_
    match j with
    | 0 => decide +kernel
    | 1 => decide +kernel
    | j + 2 =>
      rw [List.take_of_length_le (show accentedEntries.length ≤ j + 2 by simp [accentedEntries]), hsize]
      decide

end Batch

end LosslessGo
