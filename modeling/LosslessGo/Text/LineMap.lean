import LosslessGo.Text.Slice

/-!
# Lines and columns

Lines end at a line feed and count from 1. Columns count from 0, in characters, and pass over
carriage returns, so that a file with carriage returns has the columns of its twin without them.

* `LineMap.position?`: line and column of an offset.
* `LineMap.spanOf`: where a token of known spelling ends, carriage returns of the source included.
-/

namespace LosslessGo

open Text

/-- The offsets at which lines start: 0 and every offset after a line feed. -/
def lineStarts (text : String) : Array Nat :=
  (text.toByteArray.data.foldl
    (fun (i, starts) b => (i + 1, if b = lineFeed then starts.push (i + 1) else starts))
    (0, #[0])).2

/-- The line starts of a text, in order, and whether it holds carriage returns. -/
structure LineMap (text : String) where
  starts : Array Nat
  hasReturns : Bool
  starts_eq : starts = lineStarts text
  hasReturns_eq : hasReturns = hasCarriageReturn text

namespace LineMap

variable {text : String}

/-- The map of a text, computed once. -/
def ofText (text : String) : LineMap text := ⟨lineStarts text, hasCarriageReturn text, rfl, rfl⟩

instance : Subsingleton (LineMap text) where
  allEq := fun ⟨_, _, h₁, h₂⟩ ⟨_, _, k₁, k₂⟩ => by subst h₁ h₂ k₁ k₂; rfl

/-- The greatest index from `lo` on and before `hi` at which `starts` is at most `offset`, given
that it is at `lo`. -/
def search (starts : Array Nat) (offset lo hi : Nat) : Nat :=
  if hi - lo ≤ 1 then lo
  else
    let mid := (lo + hi) / 2
    if starts.getD mid 0 ≤ offset then search starts offset mid hi else search starts offset lo mid
termination_by hi - lo

/-- The index of the line that holds `offset`, from 0. -/
def lineIndex (m : LineMap text) (offset : Nat) : Nat := search m.starts offset 0 m.starts.size

/-- Whether a byte starts a column: it is neither a carriage return nor the continuation of a
character. -/
def startsColumn (b : UInt8) : Bool := b != carriageReturn && b &&& 0xC0 != 0x80

/-- The number of columns from offset `a` to offset `b`. -/
def columnsBetween (s : String) (a b : Nat) : Nat :=
  (List.range' a (b - a)).countP fun i => (byteAt? s i).any startsColumn

/-- Whether the text ends with a carriage return. -/
def endsWithCarriageReturn (s : String) : Bool :=
  byteAt? s (s.utf8ByteSize - 1) == some carriageReturn

/-- Line and column of an offset inside the text or at its end. The end of a text that ends with a
carriage return is the start of the next line. -/
def position? (m : LineMap text) (offset : Nat) : Option (Nat × Nat) :=
  if text.utf8ByteSize < offset then none
  else
    let line := m.lineIndex offset
    if 0 < offset ∧ offset = text.utf8ByteSize ∧ endsWithCarriageReturn text then some (line + 2, 0)
    else some (line + 1, columnsBetween text (m.starts.getD line 0) offset)

/-- The offset after `count` bytes from `offset` on that are no carriage returns, or the end of
the text where it holds fewer. -/
def passVisible (s : String) (offset count : Nat) : Nat :=
  match count with
  | 0 => offset
  | n + 1 =>
    match h : byteAt? s offset with
    | none => offset
    | some b => passVisible s (offset + 1) (if b = carriageReturn then n + 1 else n)
termination_by s.utf8ByteSize - offset
decreasing_by
  have := lt_of_byteAt? h
  omega

/-- The end of a token spelled `expected` at `offset`, and the text that the source must show
there. The spelling may lack carriage returns that the source has; where counting them moves the
end, the source's own text stands in for the spelling. -/
def spanOf (m : LineMap text) (offset : Nat) (expected : String) : Nat × String :=
  let stop := offset + expected.utf8ByteSize
  if m.hasReturns then
    let reached := passVisible text offset expected.utf8ByteSize
    if reached ≠ stop then
      match slice? text offset reached with
      | some widened => (reached, widened)
      | none => (stop, expected)
    else (stop, expected)
  else (stop, expected)

end LineMap

/-- A named source text with its lines. -/
structure SourceFile where
  name : String
  text : String
  lines : LineMap text

namespace SourceFile

/-- A named source text. -/
def ofText (name text : String) : SourceFile := ⟨name, text, .ofText text⟩

/-- The number of bytes of the text. -/
def size (f : SourceFile) : Nat := f.text.utf8ByteSize

end SourceFile

end LosslessGo
