import LosslessGo.Text.Slice

/-!
# Blank text

`Blank s a b` says that the text from offset `a` to offset `b` holds blanks alone. Skipping and
trimming pass over such text only (`blank_skipBlanks`, `blank_trimBlanks`), and stay inside of the
span they are given.
-/

namespace LosslessGo.Text

/-- The bytes from offset `a` to offset `b` are blanks. -/
def Blank (s : String) (a b : Nat) : Prop :=
  ∀ k c, a ≤ k → k < b → byteAt? s k = some c → isBlank c = true

namespace Blank

variable {s : String} {a b c : Nat}

theorem of_le (h : b ≤ a) : Blank s a b := fun _ _ _ _ => by omega

theorem trans (h₁ : Blank s a b) (h₂ : Blank s b c) : Blank s a c := by
  intro k x ha hc hx
  by_cases hb : k < b
  · exact h₁ k x ha hb hx
  · exact h₂ k x (by omega) hc hx

theorem single (h : blankAt s a = true) : Blank s a (a + 1) := by
  intro k x ha hk hx
  obtain rfl : k = a := by omega
  simpa [blankAt, hx] using h

end Blank

theorem blank_skipBlanks (s : String) (a b : Nat) : Blank s a (skipBlanks s a b) := by
  fun_induction skipBlanks s a b with
  | case1 a h ih => exact (Blank.single h.2).trans ih
  | case2 a h => exact .of_le (Nat.le_refl a)

theorem skipBlanks_le {s : String} {a b : Nat} (h : a ≤ b) : skipBlanks s a b ≤ b := by
  fun_induction skipBlanks s a b with
  | case1 a _ ih => exact ih (by omega)
  | case2 a _ => exact h

theorem blank_trimBlanks (s : String) (a b : Nat) : Blank s (trimBlanks s a b) b := by
  fun_induction trimBlanks s a b with
  | case1 => exact .of_le (Nat.le_refl 0)
  | case2 b h ih => exact ih.trans (.single h.2)
  | case3 b h => exact .of_le (Nat.le_refl (b + 1))

theorem trimBlanks_le (s : String) (a b : Nat) : trimBlanks s a b ≤ b := by
  fun_induction trimBlanks s a b with
  | case1 => exact Nat.le_refl 0
  | case2 b h ih => omega
  | case3 b h => exact Nat.le_refl (b + 1)

theorem le_trimBlanks {s : String} {a b : Nat} (h : a ≤ b) : a ≤ trimBlanks s a b := by
  fun_induction trimBlanks s a b with
  | case1 => exact h
  | case2 b hb ih => exact ih hb.1
  | case3 b hb => exact h

end LosslessGo.Text
