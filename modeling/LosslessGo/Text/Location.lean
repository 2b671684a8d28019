import LosslessGo.Text.LineMap

/-!
# Places in a file

A location names a span of a file for an error message, with the line and column of its start
where the start lies inside the file. Both count from 1 there.
-/

namespace LosslessGo

/-- A span of a named file. -/
structure Location where
  file : String
  offset : Nat
  stop : Nat
  lineColumn : Option (Nat × Nat)
  deriving DecidableEq, Repr

namespace Location

/-- ` at offset 3:6 for file a.go:1:4`, the line and column only where known. -/
def text (l : Location) : String :=
  s!" at offset {l.offset}:{l.stop} for file {l.file}" ++
    match l.lineColumn with
    | some (line, column) => s!":{line}:{column}"
    | none => ""

end Location

/-- The location of a span, whether or not it lies inside the file. -/
def SourceFile.location (f : SourceFile) (offset stop : Nat) : Location :=
  ⟨f.name, offset, stop, (f.lines.position? offset).map fun (line, column) => (line, column + 1)⟩

end LosslessGo
