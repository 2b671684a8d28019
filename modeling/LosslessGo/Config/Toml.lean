import LosslessGo.Config.Basic

/-!
# Configurations in TOML

Texts are read and written by a library, which a run is given (`TomlLibrary`).

* `Config.parse` reads the settings of a file, `Config.ofToml` also checks them.
* `Config.toToml` writes them.
-/

namespace LosslessGo

/-- A library that reads the settings of a configuration from TOML, and writes them. -/
structure TomlLibrary where
  /-- The settings of a text, or why it is no configuration. -/
  read : String → Except String Config
  /-- The settings as a text, or why they cannot be written. -/
  write : Config → Except String String

namespace Config

/-- The settings of the text at `path`. -/
def parse (toml : TomlLibrary) (path text : String) : Except ConfigError Config :=
  (toml.read text).mapError (.parse path)

/-- The settings of a text that is in no file; they must be admitted. -/
def ofToml (toml : TomlLibrary) (text : String) : Except ConfigError Config := do
  let c ← parse toml "<string>" text
  c.validate
  return c

/-- The configuration as a text. -/
def toToml (toml : TomlLibrary) (c : Config) : Except ConfigError String :=
  (toml.write c).mapError (.parse "<serialization>")

end Config

end LosslessGo
