/-!
# TOML values and tables

A table knows how it came about, because that decides what may be added to it: a table may be
opened once by a header, dotted keys may add to tables that dotted keys made, and a header may open
a table that stands for a longer header.

* `Table.insertPair`: adds a key and value by a dotted key.
* `Table.openTable`, `Table.openItem`: the headers `[a.b]` and `[[a.b]]`.
* `Table.find?`: the value of a key, whichever way it was written.
-/

namespace LosslessGo.Toml

mutual

/-- A value as written behind a key. Floating-point numbers and dates keep no more than their
kind. -/
inductive Value where
  | str (s : String)
  | int (n : Int)
  | float
  | bool (b : Bool)
  | datetime
  | arr (items : List Value)
  | table (t : Table)

/-- What a key stands for. -/
inductive Item where
  | value (v : Value)
  | table (t : Table)
  /-- The tables of an array of tables; the last one is being written. -/
  | tables (ts : List Table)

/-- Keys and what they stand for. A table is implicit until a header names it, and dotted where a
dotted key made it. -/
structure Table where
  implicit : Bool
  dotted : Bool
  entries : List (String × Item)

end

namespace Table

/-- A table without keys. -/
def empty : Table := ⟨false, false, []⟩

/-- What a key stands for. -/
def get? (t : Table) (k : String) : Option Item := t.entries.lookup k

/-- The entries with another item for a key. -/
def setEntry (k : String) (x : Item) : List (String × Item) → List (String × Item)
  | [] => [(k, x)]
  | (n, y) :: rest => if n = k then (k, x) :: rest else (n, y) :: setEntry k x rest

/-- The table with another item for a key. -/
def set (t : Table) (k : String) (x : Item) : Table := { t with entries := setEntry k x t.entries }

/-- A change to the last of some tables. -/
def changeLast (f : Table → Option Table) : List Table → Option (List Table)
  | [] => none
  | [t] => (f t).map ([·])
  | t :: u :: ts => (changeLast f (u :: ts)).map (t :: ·)

/-- A change to the table at a path. Tables that are missing are made. A dotted key does not reach
into tables that a header opened. -/
def changeAt (dotted : Bool) (f : Table → Option Table) : List String → Table → Option Table
  | [], t => f t
  | k :: ks, t =>
    match t.get? k with
    | none => (changeAt dotted f ks ⟨true, dotted, []⟩).map fun u => t.set k (.table u)
    | some (.value _) => none
    | some (.table u) =>
      if dotted && !u.implicit then none
      else (changeAt dotted f ks u).map fun u => t.set k (.table u)
    | some (.tables us) =>
      (changeLast (changeAt dotted f ks) us).map fun us => t.set k (.tables us)

/-- Adds a key and value; the keys before the last one lead to the table. -/
def insertPair (path : List String) (v : Value) (t : Table) : Option Table :=
  match path.getLast? with
  | none => none
  | some k =>
    changeAt true (fun u =>
      if u.dotted = path.dropLast.isEmpty ∨ (u.get? k).isSome then none
      else some (u.set k (.value v))) path.dropLast t

/-- Opens the table at a path, which may be there only as part of longer paths. -/
def openTable (path : List String) (t : Table) : Option Table :=
  match path.getLast? with
  | none => none
  | some k =>
    changeAt false (fun u =>
      match u.get? k with
      | none => some (u.set k (.table .empty))
      | some (.table w) =>
        if w.implicit && !w.dotted then some (u.set k (.table { w with implicit := false }))
        else none
      | _ => none) path.dropLast t

/-- Opens the next table of the array of tables at a path. -/
def openItem (path : List String) (t : Table) : Option Table :=
  match path.getLast? with
  | none => none
  | some k =>
    changeAt false (fun u =>
      match u.get? k with
      | none => some (u.set k (.tables [.empty]))
      | some (.tables ws) => some (u.set k (.tables (ws ++ [.empty])))
      | _ => none) path.dropLast t

end Table

/-- What a key stands for, as a value. -/
def Item.toValue : Item → Value
  | .value v => v
  | .table t => .table t
  | .tables ts => .arr (ts.map .table)

/-- The value of a key. -/
def Table.find? (t : Table) (k : String) : Option Value := (t.get? k).map (·.toValue)

end LosslessGo.Toml
