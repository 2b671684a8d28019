import LosslessGo.Flow.Graph
import LosslessGo.Tree.Token

/-!
# Named fields of a node

Beside its children a node has named fields, which say what the children mean. A table of fields
holds each name once, in order of the names.
-/

namespace LosslessGo

/-- The place of a node in its tree. -/
abbrev NodeId := Nat

/-- The value of a field. -/
inductive FieldValue where
  | node (x : Option NodeId)
  | nodes (xs : List NodeId)
  | range (r : Option TextRange)
  | str (s : String)
  | int (n : Int)
  | bool (b : Bool)
  | strings (ss : List String)
  | graph (g : Option Flow.Graph)
  | null
  /-- A field that documents leave out. -/
  | suppressed
  deriving DecidableEq, Inhabited, Repr

/-- The nodes that a value refers to, in order. -/
def FieldValue.refs : FieldValue → List NodeId
  | node x => x.toList
  | nodes xs => xs
  | _ => []

/-- Fields by name, names in ascending order. -/
structure Fields where
  entries : List (String × FieldValue)
  deriving DecidableEq, Inhabited, Repr

namespace Fields

/-- No fields. -/
def empty : Fields := ⟨[]⟩

/-- An ordered list of entries with the value of `name` set to `v`. -/
def insertEntry (name : String) (v : FieldValue) :
    List (String × FieldValue) → List (String × FieldValue)
  | [] => [(name, v)]
  | (n, w) :: rest =>
    if name < n then (name, v) :: (n, w) :: rest
    else if name = n then (name, v) :: rest
    else (n, w) :: insertEntry name v rest

/-- The table with the value of `name` set to `v`. -/
def insert (fs : Fields) (name : String) (v : FieldValue) : Fields :=
  ⟨insertEntry name v fs.entries⟩

/-- The table of the given entries; of two entries of one name the later one counts. -/
def ofList (entries : List (String × FieldValue)) : Fields :=
  entries.foldl (fun fs (name, v) => fs.insert name v) empty

/-- The value of `name`. -/
def get? (fs : Fields) (name : String) : Option FieldValue := fs.entries.lookup name

end Fields

end LosslessGo
