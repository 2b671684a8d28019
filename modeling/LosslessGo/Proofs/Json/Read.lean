import LosslessGo.Json.Value

/-!
# Reading JSON

A reader of JSON texts (RFC 8259), one character at a time. Between two characters it holds what has been
read of the arrays and objects that are still open, and what it reads right now (`State`). Numbers are
read where they are integers, as values have no others; the members of an object are kept in the order
of the text.

* `unescape`: the content of a string, from what stands between its quotes.
* `integer?`: the number that a numeral stands for.
* `State.step`: one character.
* `read`: the value of a text, or `none` where the text is not JSON.
-/

namespace LosslessGo.Json

/-! ## Strings -/

/-- The number of a hexadecimal digit. -/
def hexValue? (c : Char) : Option Nat :=
  if '0' ≤ c ∧ c ≤ '9' then some (c.toNat - '0'.toNat)
  else if 'a' ≤ c ∧ c ≤ 'f' then some (c.toNat - 'a'.toNat + 10)
  else if 'A' ≤ c ∧ c ≤ 'F' then some (c.toNat - 'A'.toNat + 10)
  else none

/-- The number of four hexadecimal digits. -/
def unit? (a b c d : Char) : Option Nat := do
  let a ← hexValue? a
  let b ← hexValue? b
  let c ← hexValue? c
  let d ← hexValue? d
  return a * 4096 + b * 256 + c * 16 + d

/-- The character of two UTF-16 surrogates. -/
def paired? (high low : Nat) : Option Char :=
  if high < 0xdc00 ∧ 0xdc00 ≤ low ∧ low < 0xe000 then
    some (Char.ofNat (0x10000 + (high - 0xd800) * 0x400 + (low - 0xdc00)))
  else none

/-- The character that a letter behind a backslash stands for. -/
def short? : Char → Option Char
  | '"' => some '"'
  | '\\' => some '\\'
  | '/' => some '/'
  | 'b' => some '\x08'
  | 'f' => some '\x0c'
  | 'n' => some '\n'
  | 'r' => some '\r'
  | 't' => some '\t'
  | _ => none

/-- The content of a string, from what stands between its quotes. -/
def unescape : List Char → Option (List Char)
  | [] => some []
  | '\\' :: 'u' :: a :: b :: c :: d :: rest =>
    match unit? a b c d with
    | none => none
    | some n =>
      if n < 0xd800 ∨ 0xe000 ≤ n then (unescape rest).map (Char.ofNat n :: ·)
      else
        match rest with
        | '\\' :: 'u' :: a' :: b' :: c' :: d' :: rest' =>
          ((unit? a' b' c' d').bind (paired? n)).bind fun ch => (unescape rest').map (ch :: ·)
        | _ => none
  | '\\' :: c :: rest => (short? c).bind fun ch => (unescape rest).map (ch :: ·)
  | c :: rest => if c = '\\' ∨ c.val < 0x20 then none else (unescape rest).map (c :: ·)

/-! ## Numbers -/

/-- Whether a character may stand in the numeral of an integer. -/
def isNumeric (c : Char) : Bool := c.isDigit || c == '-'

/-- The number of a numeral of digits. A leading zero stands alone. -/
def natural? (cs : List Char) : Option Nat :=
  if cs ≠ [] ∧ cs.all Char.isDigit ∧ (cs.head? = some '0' → cs = ['0']) then
    some (Nat.ofDigitChars 10 cs 0)
  else none

/-- The number of a numeral, which may have a sign. -/
def integer? : List Char → Option Int
  | '-' :: cs => (natural? cs).map fun n => -(n : Int)
  | cs => (natural? cs).map Int.ofNat

/-! ## The reader -/

/-- Whether a character may stand between the parts of a text. -/
def isBlank (c : Char) : Bool := c == ' ' || c == '\t' || c == '\n' || c == '\r'

/-- An open array or object around a value, as far as it stands before the value. -/
inductive Frame where
  | array (items : List Value)
  | object (members : List (String × Value)) (name : String)

/-- What a string is in a text. -/
inductive Role where
  | value
  /-- The name of a member behind the given ones. -/
  | name (members : List (String × Value))

/-- What has been read of a text, with the open arrays and objects from the inside out. -/
inductive State where
  /-- A value comes next, or the end of an array that has no items. -/
  | value (frames : List Frame)
  | after (v : Value) (frames : List Frame)
  /-- The name of a member comes next, or the end of an object that has no members. -/
  | member (members : List (String × Value)) (frames : List Frame)
  | colon (members : List (String × Value)) (name : String) (frames : List Frame)
  /-- In a string, `escaped` behind a backslash. -/
  | quoted (role : Role) (raw : List Char) (escaped : Bool) (frames : List Frame)
  /-- In the word for `v`, of which `rest` is left. -/
  | word (rest : List Char) (v : Value) (frames : List Frame)
  | number (raw : List Char) (frames : List Frame)

/-- The state behind a string. -/
def Role.read (text : String) (frames : List Frame) : Role → State
  | value => .after (.str text) frames
  | name members => .colon members text frames

namespace State

/-- The state behind the first character of a value. -/
def start (frames : List Frame) (c : Char) : Option State :=
  match c with
  | '"' => some (.quoted .value [] false frames)
  | '[' => some (.value (.array [] :: frames))
  | '\x7b' => some (.member [] frames)
  | 'n' => some (.word ['u', 'l', 'l'] .null frames)
  | 't' => some (.word ['r', 'u', 'e'] (.bool true) frames)
  | 'f' => some (.word ['a', 'l', 's', 'e'] (.bool false) frames)
  | c => if isNumeric c then some (.number [c] frames) else none

/-- The state behind a character that follows the value `v`. -/
def behind (v : Value) (frames : List Frame) (c : Char) : Option State :=
  if isBlank c then some (.after v frames)
  else if c = ',' then
    match frames with
    | .array items :: outer => some (.value (.array (items ++ [v]) :: outer))
    | .object members name :: outer => some (.member (members ++ [(name, v)]) outer)
    | [] => none
  else if c = ']' then
    match frames with
    | .array items :: outer => some (.after (.arr (items ++ [v])) outer)
    | _ => none
  else if c = '\x7d' then
    match frames with
    | .object members name :: outer => some (.after (.obj (members ++ [(name, v)])) outer)
    | _ => none
  else none

/-- One character. -/
def step : State → Char → Option State
  | .value frames, c =>
    if isBlank c then some (.value frames)
    else if c = ']' then
      match frames with
      | .array [] :: outer => some (.after (.arr []) outer)
      | _ => none
    else start frames c
  | .after v frames, c => behind v frames c
  | .member members frames, c =>
    if isBlank c then some (.member members frames)
    else if c = '"' then some (.quoted (.name members) [] false frames)
    else if c = '\x7d' ∧ members.isEmpty then some (.after (.obj []) frames)
    else none
  | .colon members name frames, c =>
    if isBlank c then some (.colon members name frames)
    else if c = ':' then some (.value (.object members name :: frames))
    else none
  | .quoted role raw true frames, c => some (.quoted role (raw ++ [c]) false frames)
  | .quoted role raw false frames, c =>
    if c = '"' then (unescape raw).map fun cs => role.read (String.ofList cs) frames
    else some (.quoted role (raw ++ [c]) (c == '\\') frames)
  | .word [] _ _, _ => none
  | .word (c' :: rest) v frames, c =>
    if c = c' then some (if rest.isEmpty then .after v frames else .word rest v frames) else none
  | .number raw frames, c =>
    if isNumeric c then some (.number (raw ++ [c]) frames)
    else (integer? raw).bind fun n => behind (.int n) frames c

/-- The value of a whole text. -/
def result? : State → Option Value
  | .after v [] => some v
  | .number raw [] => (integer? raw).map .int
  | _ => none

end State

/-- The value of a text, or `none` where the text is not JSON. -/
def read (text : String) : Option Value :=
  (text.toList.foldlM State.step (.value [])).bind State.result?

end LosslessGo.Json
