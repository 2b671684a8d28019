import LosslessGo.Toml.Scan
import LosslessGo.Toml.Value

/-!
# Reading TOML

* `readValue`: a value, nested to a limited depth.
* `readEntries`: the lines of a text.
* `parse?`: the table that a text stands for, if it is TOML.
-/

namespace LosslessGo.Toml

/-- A value without others inside. -/
def scanScalar (cs : List Char) : Option (Value × List Char) :=
  match cs with
  | 't' :: 'r' :: 'u' :: 'e' :: rest => some (.bool true, rest)
  | 'f' :: 'a' :: 'l' :: 's' :: 'e' :: rest => some (.bool false, rest)
  | '"' :: _ | '\'' :: _ => (scanString cs).map fun (s, rest) => (.str s, rest)
  | _ =>
    ((scanDateTime? cs).map fun (_, rest) => (Value.datetime, rest)).or
      (((scanFloat? cs).map fun (_, rest) => (Value.float, rest)).or
        ((scanInteger? cs).map fun (n, rest) => (.int n, rest)))

/-- The items of an array, after the opening bracket or a comma. -/
def readItems (value : Scan Value) (cs : List Char) : Option (List Value × List Char) :=
  match skipTrivia false cs with
  | ']' :: rest => some ([], rest)
  | start =>
    match value start with
    | none => none
    | some (v, rest) =>
      match skipTrivia false rest with
      | ']' :: rest => some ([v], rest)
      | ',' :: rest =>
        if rest.length < cs.length then
          (readItems value rest).map fun (vs, rest) => (v :: vs, rest)
        else none
      | _ => none
termination_by cs.length

/-- A key with its value. -/
def readPair (value : Scan Value) (cs : List Char) :
    Option ((List String × Value) × List Char) := do
  let (path, rest) ← scanKey cs
  let (v, rest) ← value (skipBlanks (← after? '=' rest))
  return ((path, v), rest)

/-- The pairs of a table in braces, after the opening brace or a comma. -/
def readPairs (value : Scan Value) (cs : List Char) :
    Option (List (List String × Value) × List Char) :=
  match readPair value cs with
  | none => none
  | some (pair, rest) =>
    match skipBlanks rest with
    | '\x7d' :: rest => some ([pair], rest)
    | ',' :: rest =>
      if rest.length < cs.length then
        (readPairs value rest).map fun (pairs, rest) => (pair :: pairs, rest)
      else none
    | _ => none
termination_by cs.length

/-- The table of some pairs. -/
def tableOfPairs (pairs : List (List String × Value)) : Option Table :=
  pairs.foldlM (fun t (path, v) => t.insertPair path v) Table.empty

/-- A table in braces, after the opening one. -/
def readInlineTable (value : Scan Value) (cs : List Char) : Option (Value × List Char) :=
  match skipBlanks cs with
  | '\x7d' :: rest => some (.table .empty, rest)
  | start => do
    let (pairs, rest) ← readPairs value start
    let t ← tableOfPairs pairs
    return (.table t, rest)

/-- A value with up to `room` levels of arrays and tables in it. -/
def readValue : Nat → Scan Value
  | 0, cs =>
    match cs with
    | '[' :: _ | '\x7b' :: _ => none
    | _ => scanScalar cs
  | room + 1, cs =>
    match cs with
    | '[' :: rest => (readItems (readValue room) rest).map fun (vs, rest) => (.arr vs, rest)
    | '\x7b' :: rest => readInlineTable (readValue room) rest
    | _ => scanScalar cs

/-- A line of a text. -/
inductive Entry where
  /-- The header of a table. -/
  | table (path : List String)
  /-- The header of the next table of an array. -/
  | item (path : List String)
  | pair (path : List String) (v : Value)
  | nothing

/-- A line, up to its end, and the text after it. -/
def readEntry (cs : List Char) : Option (Entry × List Char) :=
  match skipBlanks cs with
  | '[' :: '[' :: rest => do
    let (path, rest) ← scanKey rest
    let rest ← lineEnd? (← after? ']' (← after? ']' rest))
    return (.item path, rest)
  | '[' :: rest => do
    let (path, rest) ← scanKey rest
    let rest ← lineEnd? (← after? ']' rest)
    return (.table path, rest)
  | start =>
    match lineEnd? start with
    | some rest => some (.nothing, rest)
    | none => do
      let ((path, v), rest) ← readPair (readValue (maxDepth - 1)) start
      return (.pair path v, ← lineEnd? rest)

/-- The lines of a text. -/
def readEntries (cs : List Char) : Option (List Entry) :=
  match cs with
  | [] => some []
  | c :: cs =>
    match readEntry (c :: cs) with
    | none => none
    | some (e, rest) =>
      if _h : rest.length < (c :: cs).length then (readEntries rest).map (e :: ·) else none
termination_by cs.length
decreasing_by exact _h

/-- The root table, and the path of the table that lines add to. -/
structure Page where
  root : Table
  path : List String

/-- The page after a line. -/
def Page.add (p : Page) : Entry → Option Page
  | .nothing => some p
  | .table path => (p.root.openTable path).map (⟨·, path⟩)
  | .item path => (p.root.openItem path).map (⟨·, path⟩)
  | .pair path v => (p.root.changeAt false (Table.insertPair path v) p.path).map (⟨·, p.path⟩)

/-- A text without a byte order mark at its start. -/
def skipMark : List Char → List Char
  | '\ufeff' :: cs => cs
  | cs => cs

/-- The table that a text stands for. -/
def parse? (text : String) : Option Table := do
  let entries ← readEntries (skipMark text.toList)
  let page ← entries.foldlM Page.add ⟨Table.empty, []⟩
  return page.root

end LosslessGo.Toml
