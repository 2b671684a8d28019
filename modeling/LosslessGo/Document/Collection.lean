import LosslessGo.Json.Text

/-!
# Documents by file name

The documents of many files, in ascending order of the file names, each name once. Together they
are one JSON object.
-/

namespace LosslessGo

/-- Documents by file name, names in ascending order. -/
structure Collection where
  entries : List (String × String)
  deriving DecidableEq, Inhabited, Repr

namespace Collection

/-- No documents. -/
def empty : Collection := ⟨[]⟩

/-- Ordered entries with the document of `name` set. -/
def insertEntry (name document : String) : List (String × String) → List (String × String)
  | [] => [(name, document)]
  | (n, d) :: rest =>
    if name < n then (name, document) :: (n, d) :: rest
    else if name = n then (name, document) :: rest
    else (n, d) :: insertEntry name document rest

/-- The collection with the document of `name` set. -/
def insert (c : Collection) (name document : String) : Collection :=
  ⟨insertEntry name document c.entries⟩

/-- The document of `name`. -/
def get? (c : Collection) (name : String) : Option String := c.entries.lookup name

/-- The names, in ascending order. -/
def names (c : Collection) : List String := c.entries.map (·.1)

/-- The number of documents. -/
def size (c : Collection) : Nat := c.entries.length

/-- All documents as one object, a member on each line. -/
def text (c : Collection) : String :=
  "\x7b\n" ++
    ",\n".intercalate (c.entries.map fun (name, d) => "  " ++ Json.quote name ++ ": " ++ d) ++
    "\n\x7d"

end Collection

end LosslessGo
