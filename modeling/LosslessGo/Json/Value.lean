import LosslessGo.Json.Text

/-!
# JSON values

Values are written without blanks. The members of an object stand in ascending order of their
names, each name once; `Value.object` puts them in order.
-/

namespace LosslessGo.Json

/-- A JSON value. -/
inductive Value where
  | null
  | bool (b : Bool)
  | int (n : Int)
  | str (s : String)
  | arr (items : List Value)
  | obj (members : List (String × Value))
  deriving Inhabited, Repr

namespace Value

/-- Members in order with the value of `name` set to `v`. -/
def insertMember (name : String) (v : Value) : List (String × Value) → List (String × Value)
  | [] => [(name, v)]
  | (n, w) :: rest =>
    if name < n then (name, v) :: (n, w) :: rest
    else if name = n then (name, v) :: rest
    else (n, w) :: insertMember name v rest

/-- The object with the given members; of two of one name the later one counts. -/
def object (members : List (String × Value)) : Value :=
  .obj (members.foldl (fun ms (name, v) => insertMember name v ms) [])

mutual

/-- A value as text. -/
def text : Value → String
  | null => "null"
  | bool b => if b then "true" else "false"
  | int n => toString n
  | str s => quote s
  | arr items => "[" ++ ",".intercalate (itemTexts items) ++ "]"
  | obj members => "\x7b" ++ ",".intercalate (memberTexts members) ++ "\x7d"

/-- The items of an array as text. -/
def itemTexts : List Value → List String
  | [] => []
  | v :: vs => v.text :: itemTexts vs

/-- The members of an object as text. -/
def memberTexts : List (String × Value) → List String
  | [] => []
  | (name, v) :: ms => (quote name ++ ":" ++ v.text) :: memberTexts ms

end

end Value

end LosslessGo.Json
