import LosslessGo.Go.Kind

/-!
# Node numbers for flow graphs

Nodes get numbers, from 1, under the key of the syntax node they come from. Every function counts
for itself, so numbers are handed out in scopes: one for the file, one more for each function or
closure that is entered.
-/

namespace LosslessGo.Flow

open Go (Key)

/-- The numbers handed out in one scope, the last one first. -/
structure IdScope where
  ids : List (Key × Nat)
  deriving DecidableEq, Inhabited, Repr

namespace IdScope

/-- A scope without numbers. -/
def empty : IdScope := ⟨[]⟩

/-- The number that is handed out next. -/
def next (s : IdScope) : Nat := s.ids.length + 1

/-- The scope after the next number went to `key`. -/
def assign (s : IdScope) (key : Key) : IdScope := ⟨(key, s.next) :: s.ids⟩

/-- The last number that `key` got. -/
def get? (s : IdScope) (key : Key) : Option Nat := s.ids.lookup key

/-- The number of keys with a number. -/
def size (s : IdScope) : Nat := (s.ids.map (·.1)).eraseDups.length

end IdScope

/-- The scope of the file, and those of the functions entered and not left, innermost first. -/
structure IdScopes where
  file : IdScope
  functions : List IdScope
  deriving DecidableEq, Inhabited, Repr

namespace IdScopes

/-- The file scope alone. -/
def empty : IdScopes := ⟨.empty, []⟩

/-- Enters a function. -/
def enter (s : IdScopes) : IdScopes := { s with functions := .empty :: s.functions }

/-- Leaves the innermost function, if there is one, and gives its scope. -/
def leave (s : IdScopes) : Option IdScope × IdScopes :=
  match s.functions with
  | [] => (none, s)
  | f :: fs => (some f, { s with functions := fs })

/-- The innermost scope. -/
def current (s : IdScopes) : IdScope := s.functions.headD s.file

/-- The scopes after the innermost one handed out a number to `key`. -/
def assign (s : IdScopes) (key : Key) : IdScopes :=
  match s.functions with
  | [] => { s with file := s.file.assign key }
  | f :: fs => { s with functions := f.assign key :: fs }

end IdScopes

end LosslessGo.Flow
