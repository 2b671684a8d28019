import LosslessGo.Config.Toml
import LosslessGo.Toml.Quote
import LosslessGo.Toml.Read
import LosslessGo.Toml.Section

/-!
# A library for configurations

The settings stand in three sections: `mapper` has `strict` and `identifier_info`, `output` has
`indent`, `pipeline` has `threads`. In a text that is read, a section is a table, or an array of its
settings in this order, and other keys are passed over. In a text that is written, open settings are left
out.

* `Config.ofTable?`: the settings in a table.
* `Config.sections`: the sections of a configuration.
* `TomlLibrary.builtin`: the library that reads and writes all of this.
-/

namespace LosslessGo

open Toml (Value Table)

namespace Config

/-! ## Reading -/

/-- The settings of a section, by name or by position. -/
inductive Section where
  | named (t : Table)
  | listed (items : List Value)

namespace Section

/-- The section that a value is; a date has no settings. -/
def ofValue? : Value → Option Section
  | .table t => some (.named t)
  | .arr items => some (.listed items)
  | .datetime => some (.listed [])
  | _ => none

/-- The value of the setting of a name, at a position where names are not given. -/
def find? (name : String) (position : Nat) : Section → Option Value
  | named t => t.find? name
  | listed items => items[position]?

end Section

/-- A section of a text; one that is absent has no settings. -/
def section? (root : Table) (name : String) : Option Section :=
  match root.find? name with
  | none => some (.listed [])
  | some v => Section.ofValue? v

/-- A setting, which may be open but not of another type. -/
def setting? {α : Type} (type? : Value → Option α) (v : Option Value) : Option (Option α) :=
  match v with
  | none => some none
  | some v => (type? v).map some

def bool? : Value → Option Bool
  | .bool b => some b
  | _ => none

def str? : Value → Option String
  | .str s => some s
  | _ => none

def nat? : Value → Option Nat
  | .int n => if 0 ≤ n then some n.toNat else none
  | _ => none

/-- The settings in a table of sections. -/
def ofTable? (root : Table) : Option Config := do
  let mapper ← section? root "mapper"
  let output ← section? root "output"
  let pipeline ← section? root "pipeline"
  return {
    strict := ← setting? bool? (mapper.find? "strict" 0)
    describe := ← setting? bool? (mapper.find? "identifier_info" 1)
    indent := ← setting? str? (output.find? "indent" 0)
    threads := ← setting? nat? (pipeline.find? "threads" 0) }

/-! ## Writing -/

/-- The key and value of a setting, none where it is open. -/
def pairOf {α : Type} (key : String) (scalar : α → Toml.Scalar) (o : Option α) :
    List (String × Toml.Scalar) :=
  (o.map fun a => (key, scalar a)).toList

/-- The sections that a configuration is written in. -/
def sections (c : Config) : List Toml.Section :=
  [⟨"mapper", pairOf "strict" .bool c.strict ++ pairOf "identifier_info" .bool c.describe⟩,
    ⟨"output", pairOf "indent" .str c.indent⟩, ⟨"pipeline", pairOf "threads" .nat c.threads⟩]

end Config

/-- The library of this project. It writes no number that is past the greatest integer a text can hold. -/
def TomlLibrary.builtin : TomlLibrary where
  read text :=
    match (Toml.parse? text).bind Config.ofTable? with
    | some c => .ok c
    | none => .error "not a configuration"
  write c :=
    if c.threads.all fun n : Nat => Toml.fits n then .ok (Toml.sectionsText Toml.quote c.sections)
    else .error "number out of range"

end LosslessGo
