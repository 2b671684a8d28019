import LosslessGo.Config.Toml

/-!
# Layers of configuration

A run is configured in layers: the file of the user, over it the file of the project, over it the
environment, over it what the caller overrides. Each setting has the value of the highest layer
that gives one. What a file says is left to the library that reads it.

* `Environment.settings`: the settings that environment variables give.
* `ConfigFile.settings`: the settings that a file gives.
* `Layers.load`: the settings of a run.
-/

namespace LosslessGo

/-! ## Environment -/

/-- The values of the four environment variables, absent where a variable is not set. -/
structure Environment where
  strict : Option String
  describe : Option String
  indent : Option String
  threads : Option String
  deriving DecidableEq, Inhabited, Repr

namespace Environment

/-- A truth value, written out. -/
def bool? (s : String) : Option Bool :=
  if s = "true" then some true else if s = "false" then some false else none

/-- The number that decimal digits give. -/
def digits? (cs : List Char) : Option Nat :=
  if cs.isEmpty ∨ !cs.all Char.isDigit then none else some (Nat.ofDigitChars 10 cs 0)

/-- The greatest number of 64 bits. -/
def maxNumber : Nat := 18446744073709551615

/-- A number of 64 bits; a plus sign may stand before it. -/
def number? (s : String) : Option Nat :=
  let digits := match s.toList with
    | '+' :: cs => cs
    | cs => cs
  (digits? digits).filter (· ≤ maxNumber)

/-- The settings that the variables give. A value that is none of its type gives nothing. -/
def settings (e : Environment) : Config where
  strict := e.strict.bind bool?
  describe := e.describe.bind bool?
  indent := e.indent
  threads := e.threads.bind number?

end Environment

/-! ## Files -/

/-- What a file holds. -/
inductive FileContent where
  | text (s : String)
  /-- The file is there but cannot be read as text. -/
  | unreadable (reason : String)
  deriving DecidableEq, Inhabited, Repr

/-- A configuration file that is there. -/
structure ConfigFile where
  path : String
  content : FileContent
  deriving DecidableEq, Inhabited, Repr

/-- The settings of a file. -/
def ConfigFile.settings (toml : TomlLibrary) (f : ConfigFile) : Except ConfigError Config :=
  match f.content with
  | .text s => Config.parse toml f.path s
  | .unreadable reason => .error (.io f.path reason)

/-! ## Layers -/

/-- What configures a run. -/
structure Layers where
  user : Option ConfigFile
  project : Option ConfigFile
  environment : Environment
  overrides : Config
  deriving DecidableEq, Inhabited, Repr

namespace Layers

variable (toml : TomlLibrary)

/-- The settings of the user, none where the file cannot be read. -/
def userSettings (l : Layers) : Except ConfigError Config :=
  match l.user with
  | none => .ok .empty
  | some f =>
    match f.content with
    | .unreadable _ => .ok .empty
    | .text _ => f.settings toml

/-- The settings of the project. -/
def projectSettings (l : Layers) : Except ConfigError Config :=
  match l.project with
  | none => .ok .empty
  | some f => f.settings toml

/-- All layers, one over the other. Only the result has to be admitted. -/
def load (l : Layers) : Except ConfigError Config := do
  let user ← l.userSettings toml
  let project ← l.projectSettings toml
  let c := l.overrides.above (l.environment.settings.above (project.above user))
  c.validate
  return c

end Layers

end LosslessGo
