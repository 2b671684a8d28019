import LosslessGo.Error

/-!
# Reports

A report is what a run over many files gives: the data it produced, and the errors of single files,
which do not stop the run.

* `Report.record` adds an error, `Report.change` changes the data.
-/

namespace LosslessGo.Batch

/-- An error and the file that it belongs to. -/
structure FileError where
  file : String
  error : PipelineError
  deriving DecidableEq, Repr

/-- Data, and the errors met on the way in the order in which they were met. -/
structure Report (α : Type) where
  data : α
  errors : List FileError
  deriving DecidableEq, Repr

namespace Report

variable {α : Type}

/-- Data without errors. -/
def ofData (a : α) : Report α := ⟨a, []⟩

/-- The report with one more error. -/
def record (r : Report α) (file : String) (error : PipelineError) : Report α :=
  { r with errors := r.errors ++ [⟨file, error⟩] }

/-- The report with other data. -/
def change (r : Report α) (f : α → α) : Report α := { r with data := f r.data }

/-- Whether no error was met. -/
def isClean (r : Report α) : Bool := r.errors.isEmpty

/-- The number of errors. -/
def errorCount (r : Report α) : Nat := r.errors.length

end Report

end LosslessGo.Batch
