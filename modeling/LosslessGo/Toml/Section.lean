import LosslessGo.Toml.Value

/-!
# Sections

The plainest texts of TOML consist of sections: a header with a name, and below it a line for each key with
its value. An empty line stands between two sections.

* `Scalar`: a value that stands in its line.
* `Section.text`, `sectionsText`: sections as a text, for any way of writing strings.
-/

namespace LosslessGo.Toml

/-- A value that stands in a line. -/
inductive Scalar where
  | bool (b : Bool)
  | nat (n : Nat)
  | str (s : String)
  deriving DecidableEq, Repr

namespace Scalar

def toValue : Scalar → Value
  | bool b => .bool b
  | nat n => .int n
  | str s => .str s

/-- A value in its line, where `quote` writes strings. -/
def text (quote : String → String) : Scalar → String
  | bool b => if b then "true" else "false"
  | nat n => toString n
  | str s => quote s

end Scalar

/-- A name, and keys with their values. -/
structure Section where
  name : String
  pairs : List (String × Scalar)
  deriving DecidableEq, Repr

namespace Section

/-- The line of a key. -/
def line (key word : String) : String := key ++ " = " ++ word ++ "\n"

/-- The header of a section with some lines below it. -/
def headed (name : String) (lines : List String) : String := "[" ++ name ++ "]\n" ++ String.join lines

/-- A section as a text. -/
def text (quote : String → String) (s : Section) : String :=
  headed s.name (s.pairs.map fun p => line p.1 (p.2.text quote))

end Section

/-- Sections as a text. -/
def sectionsText (quote : String → String) (sections : List Section) : String :=
  "\n".intercalate (sections.map (·.text quote))

end LosslessGo.Toml
