import LosslessGo.Text.LineMap

/-!
# Spans over carriage returns

`passVisible` counts bytes that are no carriage returns. It stays inside of the text
(`passVisible_le`), passes one byte for each that it counts (`add_le_passVisible`), and one more for a
carriage return on the way (`add_lt_passVisible`).

* `passVisible_eq_add`, `passVisible_ne_add_iff`: where counting so makes a difference.
* `spanOf_of_unchecked`, `spanOf_of_checked`: where the text itself stands in for a spelling.
-/

namespace LosslessGo.LineMap

open Text

variable {s : String} {offset count k : Nat}

/-- A carriage return stands before `stop` from `offset` on. -/
def ReturnIn (s : String) (offset stop : Nat) : Prop :=
  ∃ k < stop, offset ≤ k ∧ byteAt? s k = some carriageReturn

instance {offset stop : Nat} : Decidable (ReturnIn s offset stop) :=
  inferInstanceAs (Decidable (∃ k < stop, offset ≤ k ∧ byteAt? s k = some carriageReturn))

theorem size_le_of_byteAt?_none (h : byteAt? s offset = none) : s.utf8ByteSize ≤ offset := by
  refine Nat.le_of_not_lt fun hlt => ?_
  have hsome := byteAt?_isSome_iff.mpr hlt
  rw [h] at hsome
  cases hsome

theorem le_passVisible (s : String) (offset count : Nat) : offset ≤ passVisible s offset count := by
  fun_induction passVisible s offset count with
  | case1 => exact Nat.le_refl _
  | case2 => exact Nat.le_refl _
  | case3 offset n b hb ih =>
    simp only [dite_eq_ite] at ih
    omega

theorem passVisible_le (h : offset ≤ s.utf8ByteSize) : passVisible s offset count ≤ s.utf8ByteSize := by
  fun_induction passVisible s offset count with
  | case1 => exact h
  | case2 => exact h
  | case3 offset n b hb ih => exact ih (lt_of_byteAt? hb)

/-- Every byte that is counted is passed, as far as the text goes. -/
theorem add_le_passVisible (s : String) (offset count : Nat) :
    min (offset + count) s.utf8ByteSize ≤ passVisible s offset count := by
  fun_induction passVisible s offset count with
  | case1 => omega
  | case2 offset n hb =>
    have := size_le_of_byteAt?_none hb
    omega
  | case3 offset n b hb ih =>
    simp only [dite_eq_ite] at ih
    by_cases hreturn : b = carriageReturn
    · rw [if_pos hreturn] at ih ⊢
      omega
    · rw [if_neg hreturn] at ih ⊢
      omega

/-- A carriage return on the way is passed without being counted. -/
theorem add_lt_passVisible (h : ReturnIn s offset (offset + count)) :
    min (offset + count + 1) s.utf8ByteSize ≤ passVisible s offset count := by
  fun_induction passVisible s offset count with
  | case1 offset =>
    obtain ⟨k, hk, hle, -⟩ := h
    omega
  | case2 offset n hb =>
    have := size_le_of_byteAt?_none hb
    omega
  | case3 offset n b hb ih =>
    simp only [dite_eq_ite] at ih
    by_cases hreturn : b = carriageReturn
    · rw [if_pos hreturn]
      have := add_le_passVisible s (offset + 1) (n + 1)
      omega
    · rw [if_neg hreturn] at ih ⊢
      obtain ⟨k, hk, hle, hkb⟩ := h
      have hne : k ≠ offset := by
        rintro rfl
        exact hreturn (Option.some.inj (hb.symm.trans hkb))
      have := ih ⟨k, by omega, by omega, hkb⟩
      omega

/-- Without carriage returns on the way, as many bytes are passed as are counted. -/
theorem passVisible_eq_add (hstop : offset + count ≤ s.utf8ByteSize)
    (h : ¬ReturnIn s offset (offset + count)) : passVisible s offset count = offset + count := by
  fun_induction passVisible s offset count with
  | case1 => rfl
  | case2 offset n hb =>
    have := size_le_of_byteAt?_none hb
    omega
  | case3 offset n b hb ih =>
    simp only [dite_eq_ite] at ih
    have hreturn : b ≠ carriageReturn := by
      rintro rfl
      exact h ⟨offset, by omega, Nat.le_refl _, hb⟩
    rw [if_neg hreturn] at ih ⊢
    have hrest : ¬ReturnIn s (offset + 1) (offset + 1 + n) := by
      rintro ⟨k, hk, hle, hkb⟩
      exact h ⟨k, by omega, by omega, hkb⟩
    rw [ih (by omega) hrest]
    omega

/-- Passing over carriage returns moves the end of a span just where the text ends before it, or where
it goes on behind it and a carriage return stands in the span. -/
theorem passVisible_ne_add_iff (h : offset ≤ s.utf8ByteSize) :
    passVisible s offset count ≠ offset + count ↔
      s.utf8ByteSize < offset + count ∨
        offset + count < s.utf8ByteSize ∧ ReturnIn s offset (offset + count) := by
  have hle : passVisible s offset count ≤ s.utf8ByteSize := passVisible_le h
  have hge := add_le_passVisible s offset count
  by_cases hreturn : ReturnIn s offset (offset + count)
  · have hgt := add_lt_passVisible hreturn
    simp only [hreturn, and_true]
    omega
  · simp only [hreturn, and_false, or_false]
    constructor
    · intro hne
      refine Nat.lt_of_not_le fun hstop => ?_
      exact hne (passVisible_eq_add hstop hreturn)
    · omega

/-! ## Spellings that the text replaces -/

/-- The text itself stands in for any spelling of `count` bytes at `offset`: it holds a carriage return,
and either it ends before the spelling does, or a carriage return stands in the way of the spelling and
moves its end to another place between characters. -/
def Unchecked (s : String) (offset count : Nat) : Prop :=
  hasCarriageReturn s = true ∧ String.Pos.Raw.IsValid s ⟨offset⟩ ∧
    String.Pos.Raw.IsValid s ⟨passVisible s offset count⟩ ∧
    (s.utf8ByteSize < offset + count ∨
      offset + count < s.utf8ByteSize ∧ ReturnIn s offset (offset + count))

instance {offset count : Nat} : Decidable (Unchecked s offset count) :=
  inferInstanceAs (Decidable (_ ∧ _ ∧ _ ∧ (_ ∨ _ ∧ _)))

variable {m : LineMap s} {expected : String}

theorem slice?_passVisible (s : String) (offset count : Nat) :
    (slice? s offset (passVisible s offset count)).isSome ↔
      String.Pos.Raw.IsValid s ⟨offset⟩ ∧ String.Pos.Raw.IsValid s ⟨passVisible s offset count⟩ := by
  unfold slice?
  split
  · rename_i h
    simp [h]
  · rename_i h
    have hle := le_passVisible s offset count
    simpa [hle] using h

theorem spanOf_of_unchecked (h : Unchecked s offset expected.utf8ByteSize) :
    m.spanOf offset expected =
      (passVisible s offset expected.utf8ByteSize,
        slice s offset (passVisible s offset expected.utf8ByteSize)) := by
  obtain ⟨hreturns, hoffset, hreached, hmoved⟩ := h
  have hle : offset ≤ s.utf8ByteSize := hoffset.le_rawEndPos
  obtain ⟨widened, hwidened⟩ := Option.isSome_iff_exists.mp
    ((slice?_passVisible s offset _).mpr ⟨hoffset, hreached⟩)
  unfold spanOf
  simp only [m.hasReturns_eq, hreturns, if_pos, (passVisible_ne_add_iff hle).mpr hmoved, hwidened,
    slice, Option.getD_some, not_false_eq_true, ne_eq]

/-- Any other spelling stands as it is, over as many bytes as it has. -/
theorem spanOf_of_checked (h : ¬Unchecked s offset expected.utf8ByteSize) :
    m.spanOf offset expected = (offset + expected.utf8ByteSize, expected) := by
  unfold spanOf
  simp only
  split
  · split
    · cases hwidened : slice? s offset (passVisible s offset expected.utf8ByteSize) with
      | none => rfl
      | some widened =>
        refine absurd ?_ h
        rename_i hreturns hne
        have hvalid := (slice?_passVisible s offset _).mp (by rw [hwidened]; rfl)
        refine ⟨m.hasReturns_eq ▸ hreturns, hvalid.1, hvalid.2, ?_⟩
        exact (passVisible_ne_add_iff hvalid.1.le_rawEndPos).mp hne
    · rfl
  · rfl

end LosslessGo.LineMap
