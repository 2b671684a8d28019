/-!
# Source text by byte offset

Source text is a `String`, and every position in it is the offset of a byte of its UTF-8 form.

* `byteAt?`: the byte at an offset.
* `slice?`: the text between two offsets, where both stand between characters.
* `spells`: whether a word stands at an offset.
* `skipBlanks`, `trimBlanks`: a span without the blanks at its ends.
-/

namespace LosslessGo.Text

/-- Byte `i` of the text. -/
def byteAt? (s : String) (i : Nat) : Option UInt8 :=
  if h : (⟨i⟩ : String.Pos.Raw) < s.rawEndPos then some (s.getUTF8Byte ⟨i⟩ h) else none

theorem byteAt?_isSome_iff {s : String} {i : Nat} : (byteAt? s i).isSome ↔ i < s.utf8ByteSize := by
  simp only [byteAt?, String.Pos.Raw.lt_iff, String.byteIdx_rawEndPos]
  split <;> simp_all

/-- A byte stands only inside the text. -/
theorem lt_of_byteAt? {s : String} {i : Nat} {b : UInt8} (h : byteAt? s i = some b) :
    i < s.utf8ByteSize :=
  byteAt?_isSome_iff.mp (by simp [h])

/-- The text from offset `a` to offset `b`, which must be in order and both between characters. -/
def slice? (s : String) (a b : Nat) : Option String :=
  if h : a ≤ b ∧ String.Pos.Raw.IsValid s ⟨a⟩ ∧ String.Pos.Raw.IsValid s ⟨b⟩ then
    some (s.extract ⟨⟨a⟩, h.2.1⟩ ⟨⟨b⟩, h.2.2⟩)
  else none

/-- The text from offset `a` to offset `b`, empty where there is no such text. -/
def slice (s : String) (a b : Nat) : String := (slice? s a b).getD ""

/-- Whether the bytes from offset `i` on begin with those of `word`. -/
def spells (s : String) (i : Nat) (word : String) : Bool :=
  (List.range word.utf8ByteSize).all fun k => byteAt? s (i + k) == byteAt? word k

/-- A blank is a space or a control character. -/
def isBlank (b : UInt8) : Bool := b ≤ 32

/-- Whether the byte at offset `i` is a blank. -/
def blankAt (s : String) (i : Nat) : Bool := (byteAt? s i).any isBlank

/-- The first offset from `a` on that holds no blank, and `b` where all up to `b` do. -/
def skipBlanks (s : String) (a b : Nat) : Nat :=
  if a < b ∧ blankAt s a then skipBlanks s (a + 1) b else a
termination_by b - a

/-- The offset after the last byte before `b` that is no blank, and `a` where all from `a` on are. -/
def trimBlanks (s : String) (a : Nat) : Nat → Nat
  | 0 => 0
  | b + 1 => if a ≤ b ∧ blankAt s b then trimBlanks s a b else b + 1

theorem le_skipBlanks (s : String) (a b : Nat) : a ≤ skipBlanks s a b := by
  fun_induction skipBlanks s a b with
  | case1 a h ih => omega
  | case2 a h => exact Nat.le_refl a

/-- The byte of a carriage return. -/
def carriageReturn : UInt8 := 13

/-- The byte that ends a line. -/
def lineFeed : UInt8 := 10

/-- Whether the text holds a carriage return. -/
def hasCarriageReturn (s : String) : Bool := s.toList.contains '\r'

/-- The text without its carriage returns. -/
def withoutCarriageReturns (s : String) : String := String.ofList (s.toList.filter (· ≠ '\r'))

end LosslessGo.Text
