import LosslessGo.Error

/-!
# Framed batches

A batch is a sequence of entries without anything between them. An entry is a name and a content,
each written as its number of bytes, in four bytes with the least significant first, and then the
bytes themselves.

* `encode` writes a batch, `decode` reads one.
* `readText` reads one text, and says where the next one starts.
-/

namespace LosslessGo.Batch

/-- A named content. -/
structure Entry where
  name : String
  content : String
  deriving DecidableEq, Inhabited, Repr

/-- The number of bytes of a length. -/
def lengthSize : Nat := 4

/-- The greatest length that can be written, the greatest number of 31 bits. -/
def maxLength : Nat := 2147483647

/-- A length in four bytes. Greater lengths than can be written are written as the greatest. -/
def lengthBytes (n : Nat) : List UInt8 :=
  let m := min n maxLength
  [m.toUInt8, (m / 256).toUInt8, (m / 65536).toUInt8, (m / 16777216).toUInt8]

/-- The bytes of a text. -/
def bytesOf (s : String) : List UInt8 := s.toUTF8.data.toList

/-- A text in a batch. -/
def textBytes (s : String) : List UInt8 := lengthBytes (bytesOf s).length ++ bytesOf s

/-- Entries as a batch. -/
def encode (entries : List Entry) : List UInt8 :=
  entries.flatMap fun e => textBytes e.name ++ textBytes e.content

/-- The number in four bytes, negative where the highest of the 32 bits is set. -/
def lengthOf (a b c d : UInt8) : Int :=
  let n : Nat := a.toNat + 256 * (b.toNat + 256 * (c.toNat + 256 * d.toNat))
  if n ≤ maxLength then (n : Int) else (n : Int) - 4294967296

/-- The length in the first four bytes, and the bytes after it. -/
def readLength (bytes : List UInt8) (offset : Nat) : Except InputError (Nat × List UInt8) :=
  match bytes with
  | a :: b :: c :: d :: rest =>
    let n := lengthOf a b c d
    if n < 0 then .error (.negativeLength offset n) else .ok (n.toNat, rest)
  | _ => .error (.truncatedFrame offset lengthSize bytes.length)

/-- The text of some bytes. -/
def textOf? (bytes : List UInt8) : Option String := String.fromUTF8? bytes.toByteArray

/-- The text that a batch starts with, the bytes after it and their offset; `offset` is where
`bytes` stand in the batch. -/
def readText (bytes : List UInt8) (offset : Nat) :
    Except InputError (String × List UInt8 × Nat) := do
  let (n, rest) ← readLength bytes offset
  let start := offset + lengthSize
  if rest.length < n then throw (.truncatedFrame start n rest.length)
  match textOf? (rest.take n) with
  | some s => return (s, rest.drop n, start + n)
  | none => throw (.invalidUtf8 start)

/-- The entry that a batch starts with, the bytes after it and their offset. -/
def readEntry (bytes : List UInt8) (offset : Nat) :
    Except InputError (Entry × List UInt8 × Nat) := do
  let (name, rest, next) ← readText bytes offset
  let (content, rest, next) ← readText rest next
  return (⟨name, content⟩, rest, next)

theorem readLength_length {bytes rest : List UInt8} {offset n : Nat}
    (h : readLength bytes offset = .ok (n, rest)) : rest.length < bytes.length := by
  unfold readLength at h
  split at h
  · dsimp only at h
    split at h <;> simp_all
    omega
  · simp at h

theorem readText_length {bytes rest : List UInt8} {offset next : Nat} {s : String}
    (h : readText bytes offset = .ok (s, rest, next)) : rest.length < bytes.length := by
  unfold readText at h
  cases hl : readLength bytes offset with
  | error e => simp [hl, bind, Except.bind] at h
  | ok r =>
    obtain ⟨n, rest'⟩ := r
    have := readLength_length hl
    simp only [hl, bind, Except.bind] at h
    split at h
    · simp [throw, throwThe, MonadExceptOf.throw] at h
    · simp only [pure, Except.pure] at h
      split at h
      · simp only [Except.ok.injEq, Prod.mk.injEq] at h
        simp only [← h.2.1, List.length_drop]
        omega
      · simp [throw, throwThe, MonadExceptOf.throw] at h

theorem readEntry_length {bytes rest : List UInt8} {offset next : Nat} {e : Entry}
    (h : readEntry bytes offset = .ok (e, rest, next)) : rest.length < bytes.length := by
  unfold readEntry at h
  cases h₁ : readText bytes offset with
  | error e => simp [h₁, bind, Except.bind] at h
  | ok r₁ =>
    obtain ⟨name, rest₁, next₁⟩ := r₁
    cases h₂ : readText rest₁ next₁ with
    | error e => simp [h₁, h₂, bind, Except.bind] at h
    | ok r₂ =>
      obtain ⟨content, rest₂, next₂⟩ := r₂
      simp only [h₁, h₂, bind, Except.bind, pure, Except.pure, Except.ok.injEq, Prod.mk.injEq] at h
      have := readText_length h₁
      have := readText_length h₂
      simp only [← h.2.1]
      omega

/-- The entries of the rest of a batch. -/
def decodeFrom (bytes : List UInt8) (offset : Nat) : Except InputError (List Entry) :=
  match bytes with
  | [] => .ok []
  | b :: bs =>
    match _h : readEntry (b :: bs) offset with
    | .error e => .error e
    | .ok (e, rest, next) => (decodeFrom rest next).map (e :: ·)
termination_by bytes.length
decreasing_by exact readEntry_length ‹_›

/-- The entries of a batch. -/
def decode (bytes : List UInt8) : Except InputError (List Entry) := decodeFrom bytes 0

end LosslessGo.Batch
