import Mathlib.Algebra.Ring.Parity
import Mathlib.Data.List.DropRight
import LosslessGo.Proofs.Json.Values

/-!
# Literals

What stands between the quotes of a string in JSON is put together from pieces that each stand for one
character. A quote among them is behind a backslash that is not escaped itself, so that no piece ends the
literal, and the text of a value has one reading.

* `backslashes`: how many backslashes a text ends with. Pieces leave their number even
  (`even_backslashes`), and inside of a piece a quote finds it odd (`odd_backslashes`).
* `quote_decodes`: literals and texts of values are read back.
-/

namespace LosslessGo.Json

/-- What stands between the quotes of a literal for the characters `cs`. -/
def contentOf (cs : List Char) : List Char := cs.flatMap fun c => (escape c).toList

theorem contentOf_concat (cs : List Char) (c : Char) :
    contentOf (cs ++ [c]) = contentOf cs ++ (escape c).toList := by
  rw [contentOf, List.flatMap_append, List.flatMap_singleton]
  rfl

theorem toList_quote (s : String) : (quote s).toList = '"' :: contentOf s.toList ++ ['"'] := by
  rw [quote, String.toList_append, String.toList_append, String.toList_join, List.flatMap_map]
  rfl

/-! ## Control characters -/

theorem hexDigit_visible (n : Nat) : ' ' ≤ hexDigit n ∧ hexDigit n ≠ '\\' ∧ hexDigit n ≠ '"' := by
  have hall : ∀ c ∈ "0123456789abcdef".toList, ' ' ≤ c ∧ c ≠ '\\' ∧ c ≠ '"' := forall_of_all rfl
  exact hall _ (hexDigit_mem n)

/-- No control character stands for itself. -/
theorem escape_visible (c : Char) : ∀ x ∈ (escape c).toList, ' ' ≤ x := by
  rcases escape_cases c with ⟨letter, heq, hmem, -⟩ | ⟨heq, -⟩ | ⟨heq, -, -, hc⟩
  · have hletter : ∀ x ∈ ['"', '\\', 'n', 'r', 't'], ' ' ≤ x := forall_of_all rfl
    simpa [heq] using hletter letter hmem
  · simp [heq, toList_hex4, hexDigit_visible]
  · have hcontrol : ¬c.val < 0x20 := by
      intro hlt
      simp [isNumbered, hlt] at hc
    rw [heq, List.forall_mem_singleton]
    exact UInt32.not_lt.mp hcontrol

theorem contentOf_visible (cs : List Char) : ∀ x ∈ contentOf cs, ' ' ≤ x := by
  intro x hx
  obtain ⟨c, -, hx⟩ := List.mem_flatMap.mp hx
  exact escape_visible c x hx

/-! ## Quotes -/

/-- The number of backslashes that a text ends with. -/
def backslashes (cs : List Char) : Nat := (cs.rtakeWhile (· = '\\')).length

theorem backslashes_concat (cs : List Char) (c : Char) :
    backslashes (cs ++ [c]) = if c = '\\' then backslashes cs + 1 else 0 := by
  rw [backslashes]
  split
  · rw [List.rtakeWhile_concat_pos _ _ _ (by simpa), List.length_append, List.length_singleton]
    rfl
  · rw [List.rtakeWhile_concat_neg _ _ _ (by simpa), List.length_nil]

/-- After a piece the number of backslashes is even: the last character is none, or the piece is a
backslash that is escaped. -/
theorem even_backslashes (cs : List Char) : Even (backslashes (contentOf cs)) := by
  induction cs using List.reverseRecOn with
  | nil => exact .zero
  | append_singleton cs c ih =>
    rw [contentOf_concat]
    rcases escape_cases c with ⟨letter, heq, -, -⟩ | ⟨heq, -⟩ | ⟨heq, -, hb, -⟩
    · rw [heq, List.append_cons, backslashes_concat, backslashes_concat, if_pos rfl]
      split
      · exact ih.add even_two
      · exact .zero
    · rw [heq, toList_hex4, show ∀ a b c d : Char, contentOf cs ++ '\\' :: 'u' :: [a, b, c, d] =
          contentOf cs ++ ['\\', 'u', a, b, c] ++ [d] by simp, backslashes_concat,
        if_neg (hexDigit_visible _).2.1]
      exact .zero
    · rw [heq, backslashes_concat, if_neg hb]
      exact .zero

/-- A quote in the piece for a character is the second character of the piece. -/
theorem eq_of_escape_eq_append {c : Char} {before after : List Char}
    (h : (escape c).toList = before ++ '"' :: after) : before = ['\\'] := by
  rcases escape_cases c with ⟨letter, heq, -, -⟩ | ⟨heq, -⟩ | ⟨heq, hq, -, -⟩
  · rw [heq] at h
    match before, h with
    | [], h => cases (List.cons.inj h).1
    | [x], h => rw [(List.cons.inj h).1]
    | x :: y :: before, h => simp at h
  · rw [heq, toList_hex4] at h
    have hmem : '"' ∈ before ++ '"' :: after := by simp
    rw [← h] at hmem
    simp [Ne.symm (hexDigit_visible _).2.2] at hmem
  · have hmem : '"' ∈ before ++ '"' :: after := by simp
    rw [← h, heq, List.mem_singleton] at hmem
    exact absurd hmem.symm hq

/-- A quote between the quotes of a literal is escaped: the number of backslashes before it is odd. -/
theorem odd_backslashes {cs before after : List Char} (h : contentOf cs = before ++ '"' :: after) :
    Odd (backslashes before) := by
  induction cs using List.reverseRecOn generalizing after with
  | nil => simp [contentOf] at h
  | append_singleton cs c ih =>
    rw [contentOf_concat, List.append_eq_append_iff] at h
    rcases h with ⟨middle, rfl, hpiece⟩ | ⟨middle, hcs, hpiece⟩
    · rw [eq_of_escape_eq_append hpiece, backslashes_concat, if_pos rfl]
      exact (even_backslashes cs).add_one
    · cases middle with
      | nil =>
        have hstart : [] = ['\\'] := eq_of_escape_eq_append hpiece.symm
        cases hstart
      | cons x middle =>
        obtain ⟨rfl, -⟩ := List.cons.inj hpiece
        exact ih hcs

/-! ## Reading back -/

theorem read_quote (s : String) : read (quote s) = some (.str s) :=
  (Reads.of_passes fun _ => passes_quote s).read_eq.1

theorem quote_inj {s s' : String} : quote s = quote s' ↔ s = s' := by
  refine ⟨fun h => ?_, congrArg quote⟩
  have hread := read_quote s
  rw [h, read_quote s', Option.some.injEq, Value.str.injEq] at hread
  exact hread.symm

/-- A literal stands for its string: what is between the quotes is decoded to it, and has no control
characters, no characters of markup and no quotes but those that are escaped. The literal is read back as
the string, so that no other string has it, and the text of a value is read back as the value. -/
theorem quote_decodes :
    (∀ s, ∃ content, (quote s).toList = '"' :: content ++ ['"'] ∧
      unescape content = some s.toList ∧ (∀ c ∈ content, ' ' ≤ c ∧ c ∉ markup) ∧
      ∀ before after, content = before ++ '"' :: after → Odd (backslashes before)) ∧
    (∀ s, read (quote s) = some (.str s)) ∧ (∀ s s', quote s = quote s' ↔ s = s') ∧
    ∀ v : Value, read v.text = some v ∧ IsInert v.text := by
  refine ⟨fun s => ?_, read_quote, fun _ _ => quote_inj, fun v => (reads_text v).read_eq⟩
  refine ⟨contentOf s.toList, toList_quote s, unescape_flatMap _, fun c hc => ?_,
    fun before after => odd_backslashes⟩
  refine ⟨contentOf_visible _ c hc, ?_⟩
  have hinert : IsInert (quote s) := (Reads.of_passes fun _ => passes_quote s).read_eq.2
  exact hinert c (by simp [toList_quote, hc])

example : quote "\\\"<\x01" = "\"\\\\\\\"\\u003c\\u0001\"" := by decide

end LosslessGo.Json
