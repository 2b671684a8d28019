/-!
# Text ranges

A range runs from a line and column to a line and column; lines count from 1 and columns from 0.
Ranges are ordered by start line, start column, end line, end column.
-/

namespace LosslessGo

/-- A stretch of source text by lines and columns. -/
structure TextRange where
  startLine : Nat
  startColumn : Nat
  endLine : Nat
  endColumn : Nat
  deriving DecidableEq, Inhabited, Ord, Repr

namespace TextRange

/-- From the start of one range to the end of another. -/
def span (first last : TextRange) : TextRange :=
  ⟨first.startLine, first.startColumn, last.endLine, last.endColumn⟩

/-- `line:column::endColumn` within a line, and `line:column:endLine:endColumn` across lines. -/
def text (r : TextRange) : String :=
  if r.startLine = r.endLine then s!"{r.startLine}:{r.startColumn}::{r.endColumn}"
  else s!"{r.startLine}:{r.startColumn}:{r.endLine}:{r.endColumn}"

end TextRange

end LosslessGo
