import LosslessGo.Error

/-!
# Configurations

A configuration has four settings, and any of them may be open.

* `Config.above` puts the settings of one configuration over those of another, one by one.
* `Config.isStrict` and its neighbours give the value that counts where a setting is open.
* `Config.validate` says which settings are not admitted.
-/

namespace LosslessGo

/-- The settings of a run; an open one is absent. -/
structure Config where
  /-- Whether disagreements with the source text are errors. -/
  strict : Option Bool
  /-- Whether identifiers are described. -/
  describe : Option Bool
  /-- What a line of a document is indented by. -/
  indent : Option String
  /-- The number of workers; 0 leaves it to the machine. -/
  threads : Option Nat
  deriving DecidableEq, Inhabited, Repr

namespace Config

/-- All settings open. -/
def empty : Config := ⟨none, none, none, none⟩

/-- The settings of `c`, and those of `below` where `c` leaves them open. -/
def above (c below : Config) : Config where
  strict := c.strict.or below.strict
  describe := c.describe.or below.describe
  indent := c.indent.or below.indent
  threads := c.threads.or below.threads

/-! ## Values that count -/

/-- Disagreements are errors unless the configuration says otherwise. -/
def isStrict (c : Config) : Bool := c.strict.getD true

/-- Identifiers are described unless the configuration says otherwise. -/
def describes (c : Config) : Bool := c.describe.getD true

/-- Two blanks unless the configuration says otherwise. -/
def indentUnit (c : Config) : String := c.indent.getD "  "

/-- Left to the machine unless the configuration says otherwise. -/
def threadCount (c : Config) : Nat := c.threads.getD 0

/-! ## Admitted settings -/

/-- The greatest number of workers that is admitted. -/
def maxThreads : Nat := 1024

/-- Whether a text consists of blanks and tabs. -/
def isIndent (s : String) : Bool := s.toList.all fun c => c == ' ' || c == '\t'

/-- Fails on the first setting that is not admitted. -/
def validate (c : Config) : Except ConfigError Unit :=
  if !c.indent.all isIndent then
    .error (.validationFailed "output.indent" "must contain only spaces and tabs")
  else if !c.threads.all (· ≤ maxThreads) then
    .error (.validationFailed "pipeline.threads" s!"must be at most {maxThreads}")
  else .ok ()

end Config

end LosslessGo
