import LosslessGo.Symbol.Basic
import LosslessGo.Symbol.Declarations

/-!
# What a tree says about names

An identifier carries the number, type and package of its symbol, and a call the types of its
results. `Facts` holds what is said about the names of one file; `Facts.ofSymbols` takes it from a
symbol table.
-/

namespace LosslessGo

open Go

/-- The word for a type or package that is not known. -/
def unknown : String := "UNKNOWN"

/-- What is said about an identifier. Symbols are told apart by a number, 0 where the place of
declaration is not known. -/
structure IdentifierInfo where
  id : Nat
  type : String
  package : String
  deriving DecidableEq, Inhabited, Repr

/-- What is said about an identifier without a symbol. -/
def IdentifierInfo.unknown : IdentifierInfo := ⟨0, LosslessGo.unknown, LosslessGo.unknown⟩

namespace Symbol

/-- Whether the type checker could not tell the type. -/
def hasInvalidType (s : Symbol) : Bool := "invalid type".toList.isSuffixOf s.type.toList

/-- The package that the symbol is from: of a package name the package itself. -/
def package (s : Symbol) : String :=
  match s.kind with
  | .package path => path
  | .func p | .type p => p.getD unknown
  | _ => unknown

end Symbol

/-- What is said about the names of a file. -/
structure Facts where
  /-- What is said about an identifier, where identifiers are described at all. -/
  identifier : Ident → Option IdentifierInfo
  /-- The types of a call's results. -/
  results : Call → List String

namespace Facts

/-- The type of an identifier's symbol. An invalid type gives way to the text of the type that the
name was declared with. -/
def typeOf (declarations : Declarations) (source : String) (x : Ident) (s : Symbol) : String :=
  if s.hasInvalidType then
    (x.decl.bind (declarations.typeText? source)).getD unknown
  else s.type

/-- What a symbol table says about an identifier. -/
def identifierInfo (symbols : SymbolTable) (declarations : Declarations) (source : String)
    (x : Ident) : IdentifierInfo :=
  match symbols.symbol? x.pos with
  | none => .unknown
  | some s => ⟨(s.decl.map fun p => p.toNat + 1).getD 0, typeOf declarations source x s, s.package⟩

/-- The name that a call calls. -/
def callee? (c : Call) : Option Ident :=
  match c.callee with
  | .ident x => some x
  | .selector _ x => some x
  | _ => none

/-- The result types of the function that a call calls by name. -/
def callResults (symbols : SymbolTable) (c : Call) : List String :=
  (((callee? c).bind fun x => symbols.usage? x.pos).bind (·.results)).getD []

/-- What a symbol table says about the names of a file. Identifiers are described on request. -/
def ofSymbols (symbols : SymbolTable) (declarations : Declarations) (source : String)
    (describe : Bool) : Facts where
  identifier x := if describe then some (identifierInfo symbols declarations source x) else none
  results c := callResults symbols c

end Facts

end LosslessGo
