import LosslessGo.Batch.Frame

/-!
# Framing is exact

Each piece of a batch is read where it was written, whatever follows it (`readText_textBytes`,
`readEntry_entryBytes`), and what is read was written (`of_readText`, `of_readEntry`).

* `decodeFrom_append`: entries are read one after the other.
* `decode_exact`: a batch is read just where it was written from entries that fit, and reading ends with
  the batch or at the first entry that cannot be read.
-/

namespace LosslessGo.Batch

/-- The sizes of the name and the content can be written. -/
structure Entry.Fits (e : Entry) : Prop where
  name_le : e.name.utf8ByteSize ≤ maxLength
  content_le : e.content.utf8ByteSize ≤ maxLength

/-- An entry in a batch. -/
def entryBytes (e : Entry) : List UInt8 := textBytes e.name ++ textBytes e.content

variable {bytes rest : List UInt8} {offset next n : Nat} {s : String} {e : Entry}
  {entries : List Entry} {err : InputError}

theorem encode_cons (e : Entry) (entries : List Entry) :
    encode (e :: entries) = entryBytes e ++ encode entries := by
  simp only [encode, List.flatMap_cons, entryBytes]

/-! ## Lengths -/

@[simp] theorem length_lengthBytes (n : Nat) : (lengthBytes n).length = lengthSize := rfl

theorem lengthOf_lengthBytes (h : n ≤ maxLength) :
    lengthOf n.toUInt8 (n / 256).toUInt8 (n / 65536).toUInt8 (n / 16777216).toUInt8 = n := by
  have hn : n ≤ 2147483647 := h
  have hdigits : n.toUInt8.toNat + 256 * ((n / 256).toUInt8.toNat + 256 *
      ((n / 65536).toUInt8.toNat + 256 * (n / 16777216).toUInt8.toNat)) = n := by
    simp only [Nat.toUInt8_eq, UInt8.toNat_ofNat', Nat.reducePow]
    omega
  simp only [lengthOf, hdigits, if_pos h]

/-- Four bytes are those of the length that they stand for, unless that is negative. -/
theorem of_lengthOf {a b c d : UInt8} (h : lengthOf a b c d = n) :
    n ≤ maxLength ∧ lengthBytes n = [a, b, c, d] := by
  have ha := a.toNat_lt
  have hb := b.toNat_lt
  have hc := c.toNat_lt
  have hd := d.toNat_lt
  have hn : n ≤ maxLength ∧
      a.toNat + 256 * (b.toNat + 256 * (c.toNat + 256 * d.toNat)) = n := by
    unfold lengthOf at h
    dsimp only at h
    split at h <;> omega
  refine ⟨hn.1, ?_⟩
  have hbyte {x : UInt8} {k : Nat} (hk : k % 256 = x.toNat) : k.toUInt8 = x := by
    rw [← UInt8.toNat_inj]
    simpa using hk
  simp only [lengthBytes, Nat.min_eq_left hn.1]
  rw [hbyte (x := a), hbyte (x := b), hbyte (x := c), hbyte (x := d)] <;> omega

theorem readLength_lengthBytes (h : n ≤ maxLength) (rest : List UInt8) (offset : Nat) :
    readLength (lengthBytes n ++ rest) offset = .ok (n, rest) := by
  simp only [lengthBytes, Nat.min_eq_left h, readLength, List.cons_append, List.nil_append,
    lengthOf_lengthBytes h]
  rw [if_neg (by omega), Int.toNat_natCast]

theorem of_readLength (h : readLength bytes offset = .ok (n, rest)) :
    n ≤ maxLength ∧ bytes = lengthBytes n ++ rest := by
  unfold readLength at h
  split at h
  · rename_i a b c d rest'
    dsimp only at h
    split at h
    · cases h
    · simp only [Except.ok.injEq, Prod.mk.injEq] at h
      obtain ⟨hn, rfl⟩ := h
      have hlength : lengthOf a b c d = n := by omega
      obtain ⟨hle, hbytes⟩ := of_lengthOf hlength
      exact ⟨hle, by rw [hbytes]; rfl⟩
  · cases h

/-! ## Texts -/

/-- The bytes of a text are those of no other text, and other bytes are those of none. -/
theorem textOf?_eq_some_iff : textOf? bytes = some s ↔ bytesOf s = bytes := by
  unfold textOf? String.fromUTF8? bytesOf
  constructor
  · intro h
    split at h
    · obtain rfl := Option.some.inj h
      simp [String.toUTF8, String.fromUTF8]
    · cases h
  · rintro rfl
    have hbytes : s.toUTF8.data.toList.toByteArray = s.toByteArray := by
      ext1
      simp [String.toUTF8]
    simp only [hbytes, s.isValidUTF8, dite_true]
    rfl

theorem length_bytesOf (s : String) : (bytesOf s).length = s.utf8ByteSize := rfl

theorem length_textBytes (s : String) :
    (textBytes s).length = lengthSize + s.utf8ByteSize := by
  rw [textBytes, List.length_append, length_lengthBytes, length_bytesOf]

/-- A length is followed by a text of that many bytes, unless the batch ends inside of it or the bytes
are no text. -/
theorem readText_of_readLength (h : readLength bytes offset = .ok (n, rest)) :
    readText bytes offset =
      if rest.length < n then .error (.truncatedFrame (offset + lengthSize) n rest.length)
      else match textOf? (rest.take n) with
        | some s => .ok (s, rest.drop n, offset + lengthSize + n)
        | none => .error (.invalidUtf8 (offset + lengthSize)) := by
  by_cases hlength : rest.length < n
  · simp only [readText, h, bind, Except.bind, throw, throwThe, MonadExceptOf.throw, if_pos hlength]
  · cases htext : textOf? (rest.take n) <;>
      simp only [readText, h, bind, Except.bind, throw, throwThe, MonadExceptOf.throw, pure,
        Except.pure, if_neg hlength, htext]

theorem readText_textBytes (h : s.utf8ByteSize ≤ maxLength) (rest : List UInt8) (offset : Nat) :
    readText (textBytes s ++ rest) offset = .ok (s, rest, offset + (textBytes s).length) := by
  have hlength := readLength_lengthBytes h (bytesOf s ++ rest) offset
  rw [← length_bytesOf, ← List.append_assoc, ← textBytes] at hlength
  have hbody : ¬(bytesOf s ++ rest).length < (bytesOf s).length := by
    rw [List.length_append]
    omega
  rw [readText_of_readLength hlength, if_neg hbody, List.take_left, List.drop_left,
    textOf?_eq_some_iff.mpr rfl, length_textBytes, length_bytesOf, Nat.add_assoc]

theorem of_readText (h : readText bytes offset = .ok (s, rest, next)) :
    s.utf8ByteSize ≤ maxLength ∧ bytes = textBytes s ++ rest ∧
      next = offset + (textBytes s).length := by
  cases hlength : readLength bytes offset with
  | error err => simp [readText, hlength, bind, Except.bind] at h
  | ok r =>
    obtain ⟨n, body⟩ := r
    obtain ⟨hn, rfl⟩ := of_readLength hlength
    rw [readText_of_readLength hlength] at h
    split at h
    · cases h
    split at h
    · rename_i hbody _ htext
      cases h
      have hs := textOf?_eq_some_iff.mp htext
      have hsize : s.utf8ByteSize = n := by
        rw [← length_bytesOf, hs, List.length_take]
        omega
      refine ⟨hsize ▸ hn, ?_, ?_⟩
      · rw [textBytes, length_bytesOf, hsize, hs, List.append_assoc, List.take_append_drop]
      · rw [length_textBytes, hsize, Nat.add_assoc]
    · cases h

/-! ## Entries -/

theorem readEntry_entryBytes (h : e.Fits) (rest : List UInt8) (offset : Nat) :
    readEntry (entryBytes e ++ rest) offset = .ok (e, rest, offset + (entryBytes e).length) := by
  simp only [readEntry, entryBytes, List.append_assoc, readText_textBytes h.name_le,
    readText_textBytes h.content_le, bind, Except.bind, pure, Except.pure, List.length_append,
    Nat.add_assoc]

theorem of_readEntry (h : readEntry bytes offset = .ok (e, rest, next)) :
    e.Fits ∧ bytes = entryBytes e ++ rest ∧ next = offset + (entryBytes e).length := by
  unfold readEntry at h
  cases hname : readText bytes offset with
  | error err => simp [hname, bind, Except.bind] at h
  | ok r₁ =>
    obtain ⟨name, rest₁, next₁⟩ := r₁
    cases hcontent : readText rest₁ next₁ with
    | error err => simp [hname, hcontent, bind, Except.bind] at h
    | ok r₂ =>
      obtain ⟨content, rest₂, next₂⟩ := r₂
      simp only [hname, hcontent, bind, Except.bind, pure, Except.pure, Except.ok.injEq,
        Prod.mk.injEq] at h
      obtain ⟨rfl, rfl, rfl⟩ := h
      obtain ⟨hle, rfl, rfl⟩ := of_readText hname
      obtain ⟨hle', rfl, rfl⟩ := of_readText hcontent
      refine ⟨⟨hle, hle'⟩, ?_, ?_⟩
      · rw [entryBytes, List.append_assoc]
      · rw [entryBytes, List.length_append, Nat.add_assoc]

/-! ## Batches -/

theorem decodeFrom_of_readEntry (h : readEntry bytes offset = .ok (e, rest, next)) :
    decodeFrom bytes offset = (decodeFrom rest next).map (e :: ·) := by
  cases bytes with
  | nil => simp [readEntry, readText, readLength, bind, Except.bind] at h
  | cons b bs =>
    rw [decodeFrom]
    split
    · rename_i herr
      rw [h] at herr
      cases herr
    · rename_i hok
      rw [h] at hok
      cases hok
      rfl

theorem decodeFrom_of_error (hne : bytes ≠ []) (h : readEntry bytes offset = .error err) :
    decodeFrom bytes offset = .error err := by
  cases bytes with
  | nil => exact absurd rfl hne
  | cons b bs =>
    rw [decodeFrom]
    split
    · rename_i herr
      rw [h] at herr
      cases herr
      rfl
    · rename_i hok
      rw [h] at hok
      cases hok

/-- Entries that fit are read, and then what follows them. -/
theorem decodeFrom_append (h : ∀ e ∈ entries, e.Fits) (rest : List UInt8) (offset : Nat) :
    decodeFrom (encode entries ++ rest) offset =
      (decodeFrom rest (offset + (encode entries).length)).map (entries ++ ·) := by
  induction entries generalizing offset with
  | nil =>
    have hid : (([] : List Entry) ++ ·) = id := rfl
    rw [hid, Except.map_id]
    rfl
  | cons e entries ih =>
    have hentry := readEntry_entryBytes (h e (by simp)) (encode entries ++ rest) offset
    rw [encode_cons, List.append_assoc, decodeFrom_of_readEntry hentry,
      ih (fun e' he' => h e' (by simp [he'])), List.length_append, Nat.add_assoc]
    cases decodeFrom rest (offset + ((entryBytes e).length + (encode entries).length)) <;> rfl

/-- A batch starts with entries that fit, and then ends or goes on with something that cannot be read. -/
theorem exists_entries (bytes : List UInt8) (offset : Nat) :
    ∃ entries rest, (∀ e ∈ entries, e.Fits) ∧ bytes = encode entries ++ rest ∧
      (rest ≠ [] → ∃ err, readEntry rest (offset + (encode entries).length) = .error err) := by
  induction hsize : bytes.length using Nat.strongRecOn generalizing bytes offset with
  | ind size ih =>
    cases hentry : readEntry bytes offset with
    | error err => exact ⟨[], bytes, by simp, rfl, fun _ => ⟨err, hentry⟩⟩
    | ok r =>
      obtain ⟨e, rest, next⟩ := r
      obtain ⟨hfits, hbytes, rfl⟩ := of_readEntry hentry
      obtain ⟨entries, rest', hall, rfl, hend⟩ :=
        ih rest.length (hsize ▸ readEntry_length hentry) rest _ rfl
      refine ⟨e :: entries, rest', ?_, ?_, ?_⟩
      · simpa using ⟨hfits, hall⟩
      · rw [hbytes, encode_cons, List.append_assoc]
      · rw [encode_cons, List.length_append, ← Nat.add_assoc]
        exact hend

/-- Entries that fit are read back. -/
theorem decode_encode (h : ∀ e ∈ entries, e.Fits) : decode (encode entries) = .ok entries := by
  have happend := decodeFrom_append h [] 0
  rw [List.append_nil] at happend
  rw [decode, happend, decodeFrom, Except.map, List.append_nil]

/-- A batch is read as the entries that it is the encoding of, where the sizes of their texts can be
written, and as nothing else. Reading always ends, with all entries or with the error of the first one
that cannot be read. -/
theorem decode_exact (bytes : List UInt8) :
    (∀ entries, decode bytes = .ok entries ↔ bytes = encode entries ∧ ∀ e ∈ entries, e.Fits) ∧
    ((∃ entries, decode bytes = .ok entries) ∨
      ∃ entries rest err, (∀ e ∈ entries, e.Fits) ∧ bytes = encode entries ++ rest ∧
        readEntry rest (encode entries).length = .error err ∧ decode bytes = .error err) := by
  obtain ⟨found, rest, hfits, hbytes, hend⟩ := exists_entries bytes 0
  rw [Nat.zero_add] at hend
  by_cases hrest : rest = []
  · obtain rfl : bytes = encode found := by rw [hbytes, hrest, List.append_nil]
    refine ⟨fun entries => ⟨fun h => ?_, ?_⟩, .inl ⟨found, decode_encode hfits⟩⟩
    · obtain rfl : found = entries := Except.ok.inj ((decode_encode hfits).symm.trans h)
      exact ⟨rfl, hfits⟩
    · rintro ⟨heq, hall⟩
      rw [heq]
      exact decode_encode hall
  · obtain ⟨err, herr⟩ := hend hrest
    have hdecode : decode bytes = .error err := by
      rw [decode, hbytes, decodeFrom_append hfits, Nat.zero_add, decodeFrom_of_error hrest herr]
      rfl
    refine ⟨fun entries => ⟨fun h => ?_, ?_⟩, .inr ⟨found, rest, err, hfits, hbytes, herr, hdecode⟩⟩
    · rw [hdecode] at h
      cases h
    · rintro ⟨rfl, hall⟩
      exact decode_encode hall

end LosslessGo.Batch
