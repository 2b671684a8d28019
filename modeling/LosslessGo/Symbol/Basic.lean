import LosslessGo.Go.Syntax

/-!
# What a type checker knows about names

A symbol is what a name stands for. A symbol table says for each position of a name which symbol
the name there declares, and which symbol it uses.
-/

namespace LosslessGo

open Go (Pos)

/-- The kind of a symbol, with the package it is from where that is known. -/
inductive SymbolKind where
  | package (path : String)
  | func (package : Option String)
  | type (package : Option String)
  | variable
  | constant
  | label
  | builtin
  | null
  deriving DecidableEq, Inhabited, Repr

/-- What a name stands for: its kind, where it is declared, its type, and for a function the types
of its results. -/
structure Symbol where
  kind : SymbolKind
  decl : Option Pos
  type : String
  results : Option (List String)
  deriving DecidableEq, Inhabited, Repr

/-- Symbols by the position of a name; of several for one position the first counts. -/
abbrev SymbolsAt := List (Pos × Symbol)

/-- The symbols that names declare and use. -/
structure SymbolTable where
  defs : SymbolsAt
  uses : SymbolsAt
  deriving DecidableEq, Inhabited, Repr

namespace SymbolTable

/-- No symbols. -/
def empty : SymbolTable := ⟨[], []⟩

/-- The table in which the name at `pos` declares `s`. -/
def define (t : SymbolTable) (pos : Pos) (s : Symbol) : SymbolTable :=
  { t with defs := (pos, s) :: t.defs }

/-- The table in which the name at `pos` uses `s`. -/
def recordUse (t : SymbolTable) (pos : Pos) (s : Symbol) : SymbolTable :=
  { t with uses := (pos, s) :: t.uses }

/-- The symbol that the name at `pos` declares. -/
def definition? (t : SymbolTable) (pos : Pos) : Option Symbol := t.defs.lookup pos

/-- The symbol that the name at `pos` uses. -/
def usage? (t : SymbolTable) (pos : Pos) : Option Symbol := t.uses.lookup pos

/-- The symbol of the name at `pos`: the one it declares, else the one it uses. -/
def symbol? (t : SymbolTable) (pos : Pos) : Option Symbol := (t.definition? pos).or (t.usage? pos)

/-- The number of declarations and uses. -/
def size (t : SymbolTable) : Nat :=
  (t.defs.map (·.1)).eraseDups.length + (t.uses.map (·.1)).eraseDups.length

end SymbolTable

end LosslessGo
