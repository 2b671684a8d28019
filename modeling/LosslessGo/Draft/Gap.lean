import LosslessGo.Draft.Leaf

/-!
# The text between children

Nothing of the source is lost between two children of a node: comments are placed there, and
punctuation that the syntax tree does not record is found in the text.

* `missing?`: the tokens that may stand in a gap, by their first byte.
* `gapPieces`: what stands in a stretch of text without comments.
* `Fill.gap`: places the comments of a gap and the tokens between them.
* `Fill.append`: gathers a child behind the gap that separates it from the one before.
-/

namespace LosslessGo

/-- A token that syntax trees do not record. -/
structure MissingToken where
  text : String
  kind : TokenKind
  label : String
  deriving DecidableEq, Repr

/-- The tokens that syntax trees do not record. -/
def missingTokens : List MissingToken :=
  [⟨",", .other, ""⟩, ⟨";", .other, "Semicolon"⟩, ⟨".", .other, ""⟩, ⟨"[", .other, ""⟩,
    ⟨"]", .other, ""⟩, ⟨"=", .other, ""⟩, ⟨":", .other, ""⟩, ⟨"<-", .other, ""⟩,
    ⟨"type", .keyword, ""⟩, ⟨"range", .keyword, ""⟩, ⟨"else", .keyword, ""⟩,
    ⟨"chan", .keyword, ""⟩]

/-- The token that a gap shows where it has the byte `first`. -/
def missing? (first : UInt8) : Option MissingToken :=
  missingTokens.find? fun m => Text.byteAt? m.text 0 == some first

theorem missing?_length {b : UInt8} {m : MissingToken} (h : missing? b = some m) :
    0 < m.text.utf8ByteSize := by
  have hm : m ∈ missingTokens := List.mem_of_find?_eq_some h
  have hall : ∀ m ∈ missingTokens, 0 < m.text.utf8ByteSize := by decide
  exact hall m hm

/-- The missing token that the text spells at offset `i`. -/
def missingAt? (source : String) (i : Nat) : Option MissingToken :=
  ((Text.byteAt? source i).bind missing?).filter fun m => Text.spells source i m.text

theorem missingAt?_length {source : String} {i : Nat} {m : MissingToken}
    (h : missingAt? source i = some m) : 0 < m.text.utf8ByteSize := by
  obtain ⟨hb, -⟩ := Option.filter_eq_some_iff.mp h
  obtain ⟨b, -, hb⟩ := Option.bind_eq_some_iff.mp hb
  exact missing?_length hb

/-- What stands in a gap. -/
inductive GapPiece where
  | token (offset : Nat) (m : MissingToken)
  /-- Text that no token accounts for. -/
  | rest (offset stop : Nat)
  deriving DecidableEq, Repr

/-- What stands from offset `a` to offset `b`, blanks apart. The last token may reach past `b`. -/
def gapPieces (source : String) (a b : Nat) : List GapPiece :=
  let i := Text.skipBlanks source a b
  if i < b then
    match _h : missingAt? source i with
    | some m => .token i m :: gapPieces source (i + m.text.utf8ByteSize) b
    | none => [.rest i b]
  else []
termination_by b - a
decreasing_by
  have := missingAt?_length ‹_›
  have := Text.le_skipBlanks source a b
  omega

namespace Fill

/-- Gathers a child, if there is one, as it is. -/
def pushSome (x : Option NodeId) : Fill Unit :=
  match x with
  | some i => push i
  | none => pure ()

/-- Gathers the pieces of a gap. -/
def pieces (set : Setting) : List GapPiece → Fill Unit
  | [] => pure ()
  | .token offset m :: ps => do
    pushSome (← build (Build.token set offset (offset + m.text.utf8ByteSize) m.label m.kind))
    pieces set ps
  | .rest offset stop :: ps => do
    if set.strict then
      throw (.missingToken (Text.slice set.source offset stop) (set.location offset stop))
    pushSome (← build (Build.token set offset stop "" .other))
    pieces set ps

/-- Gathers tokens for a stretch of text without comments. -/
def missing (set : Setting) (offset stop : Nat) : Fill Unit :=
  if stop < offset ∨ set.size < stop then
    if set.strict then throw (.tokenSequence (set.location offset stop)) else pure ()
  else
    let first := Text.skipBlanks set.source offset stop
    pieces set (gapPieces set.source first (Text.trimBlanks set.source first stop))

/-- Leaves one more comment behind. -/
def advance : Fill Unit := fun ⟨d, children⟩ => .ok () ⟨{ d with cursor := d.cursor + 1 }, children⟩

/-- Gathers those of the given comments that lie in a gap, with tokens for the text before each,
and gives the offset after the last. -/
def placeComments (set : Setting) (stop : Nat) : List NodeId → Nat → Fill Nat
  | [], offset => pure offset
  | c :: cs, offset => do
    let n := (← get).draft.tree.node c
    if offset ≤ n.offset then
      if stop < n.stop then return offset
      missing set offset n.offset
      push c
      advance
      placeComments set stop cs n.stop
    else
      advance
      placeComments set stop cs offset

end Fill

/-- The number of comments, of the first `count`, up to the last one that starts before
`offset`. -/
def Draft.commentsBefore (d : Draft) (offset : Nat) : Nat → Nat
  | 0 => 0
  | k + 1 =>
    if offset ≤ (d.tree.node (d.comments.getD k 0)).offset then d.commentsBefore offset k else k + 1

namespace Fill

/-- Goes back to the first comment that may lie behind `offset`. -/
def rewind (offset : Nat) : Fill Unit := fun ⟨d, children⟩ =>
  .ok () ⟨{ d with cursor := d.commentsBefore offset d.cursor }, children⟩

/-- Gathers the comments of a gap and the tokens between them. -/
def gap (set : Setting) (offset stop : Nat) : Fill Unit := do
  rewind offset
  let d := (← get).draft
  let reached ← placeComments set stop (d.comments.toList.drop d.cursor) offset
  missing set reached stop

/-- Gathers a child behind the gap that starts at `offset`. -/
def appendFrom (set : Setting) (offset : Nat) (i : NodeId) : Fill Unit := do
  gap set offset ((← get).draft.tree.node i).offset
  push i

/-- Gathers a child, if there is one, behind the gap after the child before. A child that starts
before the end of the one before is an error in strict mode. -/
def append (set : Setting) (x : Option NodeId) : Fill Unit := do
  match x with
  | none => pure ()
  | some i =>
    let s ← get
    match s.children.back? with
    | none => push i
    | some last =>
      let offset := (s.draft.tree.node last).stop
      let stop := (s.draft.tree.node i).offset
      if stop < offset then
        if set.strict then throw (.tokenSequence (set.location offset stop))
        push i
      else appendFrom set offset i

/-- Gathers children in order. -/
def appendAll (set : Setting) : List (Option NodeId) → Fill Unit
  | [] => pure ()
  | x :: xs => do
    append set x
    appendAll set xs

end Fill

end LosslessGo
