import LosslessGo.Batch.Report
import LosslessGo.Config.Basic
import LosslessGo.Document.Collection
import LosslessGo.Document.File

/-!
# Converting many files

Every file of a batch gets a document. A file that does not parse, or whose syntax tree and text
disagree, gets one with the message in place of a tree, and its error is reported. There is nothing at
all where a panic ends the program.

* `SourceUnit.convert`: the document of one file.
* `convert`: the documents of all files by name, and the errors in the order of the files.
* `convertWith`: the same by workers.
-/

namespace LosslessGo.Batch

/-- A file to convert, as the parser and the type checker hand it over. -/
structure SourceUnit where
  name : String
  source : String
  /-- The syntax tree, or why the parser gave none. -/
  parsed : Except String Go.File
  symbols : SymbolTable

/-- What became of a file. -/
structure Outcome where
  name : String
  document : String
  error : Option PipelineError
  deriving DecidableEq, Repr

/-- How a configuration lets files be converted. -/
def convertOptions (config : Config) : ConvertOptions := ⟨config.isStrict, config.describes⟩

namespace SourceUnit

/-- The document of a file with the syntax tree `file`. -/
def document (u : SourceUnit) (config : Config) (file : Go.File) : Except Fault String :=
  match convertFile file (.ofText u.name u.source) u.symbols (convertOptions config) with
  | .error e => .error (.error e)
  | .ok converted => converted.document config.indentUnit none

/-- The outcome of a file that was not converted. -/
def failure (u : SourceUnit) (config : Config) (message : String) (error : PipelineError) :
    Outcome :=
  ⟨u.name, failureDocument config.indentUnit message, some error⟩

/-- Converts a file. A panic leaves no outcome. -/
def convert (u : SourceUnit) (config : Config) : Option Outcome :=
  match u.parsed with
  | .error message => some (u.failure config message (.input (.parse u.name message)))
  | .ok file =>
    match u.document config file with
    | .ok document => some ⟨u.name, document, none⟩
    | .error (.error e) => some (u.failure config e.message (.convert e))
    | .error .panic => none

end SourceUnit

/-- The report with the outcome of one more file. -/
def Report.add (r : Report Collection) (o : Outcome) : Report Collection :=
  let r := match o.error with
    | none => r
    | some e => r.record o.name e
  r.change (·.insert o.name o.document)

/-- Converts all files; of two of one name, the later one gives the document. A panic at one of them
leaves no report. -/
def convert (units : List SourceUnit) (config : Config) : Option (Report Collection) :=
  (units.mapM (SourceUnit.convert · config)).map (List.foldl Report.add (.ofData .empty))

/-! ## Workers -/

/-- What a batch needs of the machine. -/
structure Workers where
  /-- Why a pool of so many workers could not be built, if it could not. -/
  failure? : Nat → Option String
  /-- What the workers hand back for a list of files, if nothing ends the program before. -/
  collect : (SourceUnit → Option Outcome) → List SourceUnit → Option (List Outcome)

/-- The name under which errors of a whole batch are reported. -/
def batchScope : String := "<batch>"

/-- The report at the start of a batch: a pool that could not be built is an error. -/
def Workers.report (w : Workers) (config : Config) : Report Collection :=
  match w.failure? config.threadCount with
  | none => .ofData .empty
  | some message => (Report.ofData .empty).record batchScope (.threadPool message)

/-- Converts all files by workers, those of the whole program where there is no pool for the batch. -/
def convertWith (w : Workers) (units : List SourceUnit) (config : Config) :
    Option (Report Collection) :=
  (w.collect (·.convert config) units).map (List.foldl Report.add (w.report config))

end LosslessGo.Batch
