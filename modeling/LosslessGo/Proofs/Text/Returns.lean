import LosslessGo.Proofs.Text.Slices
import LosslessGo.Proofs.Text.Visible

/-!
# Texts without their carriage returns

A text without its carriage returns has the bytes that `passVisible` counts
(`bytes_withoutCarriageReturns`). So it is found where the text stands, whatever carriage returns are
among its characters.

* `passVisible_append`, `passVisible_slice`: counting passes over a text to its end.
* `spanOf_withoutCarriageReturns`: the span of a spelling that lacks the carriage returns of the source.
-/

namespace LosslessGo

namespace Text

variable {s u : String} {a b : Nat}

/-- The bytes of a text. -/
def bytes (s : String) : List UInt8 := s.toList.flatMap String.utf8EncodeChar

theorem toByteArray_bytes (s : String) : (bytes s).toByteArray = s.toByteArray := by
  rw [← String.utf8Encode_toList]
  rfl

theorem length_bytes (s : String) : (bytes s).length = s.utf8ByteSize := by
  rw [← String.size_toByteArray, ← toByteArray_bytes, List.size_toByteArray]

theorem bytes_append (s u : String) : bytes (s ++ u) = bytes s ++ bytes u := by
  rw [bytes, String.toList_append, List.flatMap_append]
  rfl

theorem byteAt?_eq (s : String) (i : Nat) : byteAt? s i = (bytes s)[i]? := by
  unfold byteAt?
  split
  · rename_i h
    have hlt : i < (bytes s).length := by
      rw [length_bytes]
      exact h
    rw [List.getElem?_eq_getElem hlt, String.getUTF8Byte_eq_getElem]
    simp only [← toByteArray_bytes, List.getElem_toByteArray]
  · rename_i h
    rw [List.getElem?_eq_none]
    rw [length_bytes]
    simpa [String.Pos.Raw.lt_iff] using h

/-- The bytes of a slice are those of the text between its ends. -/
theorem byteAt?_slice (h : slice? s a b = some u) {k : Nat} (hk : k < (bytes u).length) :
    byteAt? s (a + k) = (bytes u)[k]? := by
  obtain ⟨before, after, rfl, rfl, -⟩ := exists_append_of_slice? h
  rw [byteAt?_eq, bytes_append, bytes_append, ← length_bytes, List.append_assoc,
    List.getElem?_append_right (Nat.le_add_right _ _), Nat.add_sub_cancel_left,
    List.getElem?_append_left hk]

theorem length_bytes_slice (h : slice? s a b = some u) : a + (bytes u).length = b := by
  obtain ⟨before, after, -, rfl, rfl⟩ := exists_append_of_slice? h
  rw [length_bytes, String.utf8ByteSize_append]

/-- No other character has the byte of a carriage return: the bytes of one that takes several are all
above it. -/
theorem ne_carriageReturn_of_mem {c : Char} (hc : c ≠ '\r') {x : UInt8}
    (hx : x ∈ String.utf8EncodeChar c) : x ≠ carriageReturn := by
  have hval : c.val.toNat ≠ 13 := fun h => hc (Char.ext (UInt32.toNat_inj.mp h))
  rintro rfl
  have hbyte (n : Nat) (h : carriageReturn = UInt8.ofNat n) : n % 256 = 13 := by
    rw [← UInt8.toNat_ofNat', ← h]
    rfl
  unfold String.utf8EncodeChar at hx
  simp only at hx
  split at hx
  · have := hbyte _ (List.mem_singleton.mp hx)
    omega
  split at hx
  · simp only [List.mem_cons, List.not_mem_nil, or_false] at hx
    rcases hx with hx | hx <;> have := hbyte _ hx <;> omega
  split at hx
  · simp only [List.mem_cons, List.not_mem_nil, or_false] at hx
    rcases hx with hx | hx | hx <;> have := hbyte _ hx <;> omega
  · simp only [List.mem_cons, List.not_mem_nil, or_false] at hx
    rcases hx with hx | hx | hx | hx <;> have := hbyte _ hx <;> omega

theorem filter_utf8EncodeChar (c : Char) :
    (String.utf8EncodeChar c).filter (· ≠ carriageReturn) =
      if c ≠ '\r' then String.utf8EncodeChar c else [] := by
  split
  next hc =>
    exact List.filter_eq_self.mpr fun x hx => decide_eq_true (ne_carriageReturn_of_mem hc hx)
  next hc =>
    obtain rfl : c = '\r' := Decidable.not_not.mp hc
    decide

theorem bytes_withoutCarriageReturns (s : String) :
    bytes (withoutCarriageReturns s) = (bytes s).filter (· ≠ carriageReturn) := by
  rw [bytes, withoutCarriageReturns, String.toList_ofList, bytes, List.filter_flatMap]
  induction s.toList with
  | nil => rfl
  | cons c cs ih =>
    rw [List.flatMap_cons, ← ih, filter_utf8EncodeChar]
    by_cases hc : c = '\r'
    · rw [if_neg (not_not_intro hc), List.filter_cons_of_neg (by simpa using hc), List.nil_append]
    · rw [if_pos hc, List.filter_cons_of_pos (by simpa using hc), List.flatMap_cons]

/-- A text that is as long without its carriage returns has none. -/
theorem withoutCarriageReturns_eq_self
    (h : (withoutCarriageReturns s).utf8ByteSize = s.utf8ByteSize) : withoutCarriageReturns s = s := by
  rw [← length_bytes, ← length_bytes, bytes_withoutCarriageReturns] at h
  rw [← String.toByteArray_inj, ← toByteArray_bytes, ← toByteArray_bytes,
    bytes_withoutCarriageReturns, List.filter_sublist.eq_of_length h]

/-- A slice of a text without carriage returns has none. -/
theorem withoutCarriageReturns_slice (h : slice? s a b = some u)
    (hs : hasCarriageReturn s = false) : withoutCarriageReturns u = u := by
  obtain ⟨before, after, rfl, -, -⟩ := exists_append_of_slice? h
  have hmem : '\r' ∉ u.toList := by
    simp only [hasCarriageReturn, String.toList_append, List.contains_eq_mem, List.mem_append,
      decide_eq_false_iff_not, not_or] at hs
    exact hs.1.2
  rw [withoutCarriageReturns, List.filter_eq_self.mpr, String.ofList_toList]
  exact fun c hc => decide_eq_true fun heq => hmem (heq ▸ hc)

end Text

open Text

namespace LineMap

variable {s u : String} {a b n : Nat}

theorem passVisible_succ {x : UInt8} (h : byteAt? s a = some x) :
    passVisible s a (n + 1) = passVisible s (a + 1) (if x = carriageReturn then n + 1 else n) := by
  rw [passVisible]
  split
  · rename_i hnone
    cases h.symm.trans hnone
  · rename_i y hy
    cases h.symm.trans hy
    rfl

/-- Bytes that stand at an offset are passed, and the carriage returns among them are not counted. -/
theorem passVisible_append {xs : List UInt8} (h : ∀ k < xs.length, byteAt? s (a + k) = xs[k]?) :
    passVisible s a ((xs.filter (· ≠ carriageReturn)).length + (n + 1)) =
      passVisible s (a + xs.length) (n + 1) := by
  induction xs generalizing a with
  | nil => simp
  | cons x xs ih =>
    have hx : byteAt? s a = some x := h 0 (by simp)
    have hxs : ∀ k < xs.length, byteAt? s (a + 1 + k) = xs[k]? := fun k hk => by
      have hk := h (k + 1) (by simpa using hk)
      rwa [List.getElem?_cons_succ, Nat.add_comm k, ← Nat.add_assoc] at hk
    rw [← Nat.add_assoc, passVisible_succ hx, List.length_cons, Nat.add_comm xs.length,
      ← Nat.add_assoc, ← ih hxs]
    by_cases hreturn : x = carriageReturn
    · rw [if_pos hreturn, List.filter_cons_of_neg (by simpa using hreturn), Nat.add_assoc]
    · rw [if_neg hreturn, List.filter_cons_of_pos (by simpa using hreturn), List.length_cons]
      congr 1
      omega

/-- Counting the bytes of a slice that are no carriage returns leads to its end, unless a carriage
return is its last byte: the last byte that is counted is the last one there. -/
theorem passVisible_slice (h : slice? s a b = some u) (hlt : a < b)
    (hlast : byteAt? s (b - 1) ≠ some carriageReturn) :
    passVisible s a (withoutCarriageReturns u).utf8ByteSize = b := by
  have hlength := length_bytes_slice h
  have hbyte : ∀ k < (bytes u).length, byteAt? s (a + k) = (bytes u)[k]? := fun k => byteAt?_slice h
  rw [← length_bytes, bytes_withoutCarriageReturns]
  obtain hnil | ⟨xs, x, hxs⟩ := (bytes u).eq_nil_or_concat
  · rw [hnil, List.length_nil] at hlength
    omega
  rw [hxs, List.concat_eq_append] at hlength hbyte ⊢
  rw [List.length_append, List.length_singleton] at hlength hbyte
  have hx : byteAt? s (a + xs.length) = some x := by
    rw [hbyte _ (Nat.lt_succ_self _), List.getElem?_concat_length]
  have hvisible : x ≠ carriageReturn := by
    rintro rfl
    rw [show b - 1 = a + xs.length by omega] at hlast
    exact hlast hx
  have hinit : ∀ k < xs.length, byteAt? s (a + k) = xs[k]? := fun k hk => by
    rw [hbyte k (by omega), List.getElem?_append_left hk]
  rw [List.filter_append, List.filter_cons_of_pos (by simpa using hvisible), List.filter_nil,
    List.length_append, List.length_singleton, passVisible_append hinit, passVisible_succ hx,
    if_neg hvisible, passVisible]
  omega

/-- A text is found by its spelling without carriage returns, unless a carriage return is its last
byte. -/
theorem spanOf_withoutCarriageReturns {m : LineMap s} (h : slice? s a b = some u) (hlt : a < b)
    (hlast : byteAt? s (b - 1) ≠ some carriageReturn) :
    m.spanOf a (withoutCarriageReturns u) = (b, u) := by
  have hlength := length_bytes_slice h
  rw [length_bytes] at hlength
  have hsame (heq : withoutCarriageReturns u = u) :
      (a + (withoutCarriageReturns u).utf8ByteSize, withoutCarriageReturns u) = (b, u) := by
    rw [heq, hlength]
  unfold spanOf
  simp only [passVisible_slice h hlt hlast, h]
  split
  · split
    · rfl
    · rename_i hstop
      refine hsame (withoutCarriageReturns_eq_self ?_)
      omega
  · rename_i hreturns
    rw [m.hasReturns_eq, Bool.not_eq_true] at hreturns
    exact hsame (withoutCarriageReturns_slice h hreturns)

end LineMap

end LosslessGo
