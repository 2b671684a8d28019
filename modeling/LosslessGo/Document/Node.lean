import LosslessGo.Error
import LosslessGo.Json.Value
import LosslessGo.Tree.Basic

/-!
# Nodes, tokens and comments in a document

A node is written as an object: its type, its range, then its fields in descending order of their
names. Nodes below it stand on lines of their own, one indent deeper.

* `nodeText`: a node with all nodes that its fields refer to.
* `commentText`: a comment, with its content apart from the marks around it.
* `tokenText`: a token.
-/

namespace LosslessGo

open Json (quote)

/-- `null` for an absent value. -/
def nullText : String := "null"

/-- A range as a string. -/
def rangeText (r : TextRange) : String := quote r.text

/-- A truth value. -/
def boolText (b : Bool) : String := if b then "true" else "false"

/-- Items on lines of their own, between brackets. -/
def linesText (lead : String) (items : List String) : String :=
  if items.isEmpty then "[]" else "[\n" ++ ",\n".intercalate items ++ "\n" ++ lead ++ "]"

/-- The value of a field that refers to no node. -/
def scalarText : FieldValue → String
  | .range (some r) => rangeText r
  | .str s => quote s
  | .int n => toString n
  | .bool b => boolText b
  | .strings ss => (Json.Value.arr (ss.map .str)).text
  | .graph (some g) => g.text
  | _ => nullText

/-- The start of a node: its type and range. -/
def headText (n : Node) : String :=
  "\x7b\"@type\": " ++ quote n.type.name ++ ", \"metaData\": " ++ rangeText n.range

/-- Node `i`, whose text starts behind `lead`. References are followed to older nodes. -/
def nodeText (t : Tree) (indent lead : String) (i : NodeId) : String :=
  let n := t.node i
  let deeper := lead ++ indent
  let below (c : NodeId) : String :=
    if _h : c < i then nodeText t indent deeper c else deeper ++ nullText
  let fieldText : String × FieldValue → String
    | (_, .suppressed) => ""
    | (name, .node none) => ",\"" ++ name ++ "\":\n" ++ deeper ++ nullText
    | (name, .node (some c)) => ",\"" ++ name ++ "\":\n" ++ below c
    | (name, .nodes cs) => ",\"" ++ name ++ "\":" ++ linesText lead (cs.map below)
    | (name, v) => ",\"" ++ name ++ "\":" ++ scalarText v
  lead ++ headText n ++ String.join (n.fields.entries.reverse.map fieldText) ++ "\x7d"
termination_by i

/-- The content of a comment: the text without the marks, and its range. The last two bytes of a block
comment are cut off whatever they are, and it is a panic to cut inside of a character. -/
def commentContent (t : Token) : Except Fault (String × TextRange) :=
  let size := t.text.utf8ByteSize
  let r := { t.range with startColumn := t.range.startColumn + 2 }
  if Text.spells t.text 0 "//" then .ok (Text.slice t.text 2 size, r)
  else if Text.spells t.text 0 "/*" ∧ 4 ≤ size then
    match Text.slice? t.text 2 (size - 2) with
    | none => .error .panic
    | some s => .ok (s, { r with endColumn := r.endColumn - 2 })
  else .error (.error (.comment t.text))

/-- A comment. -/
def commentText (n : Node) : Except Fault String :=
  match n.token with
  | none => .error (.error (.comment ""))
  | some t =>
    match commentContent t with
    | .error fault => .error fault
    | .ok (content, range) =>
      .ok ("\x7b\"text\":" ++ quote t.text ++ ", \"contentText\":" ++ quote content ++
        ", \"range\":" ++ rangeText t.range ++ ", \"contentRange\": " ++ rangeText range ++ "\x7d")

/-- A token behind `lead`. Its kind is written unless it is `OTHER`. -/
def tokenText (lead : String) (n : Node) : String :=
  match n.token with
  | none => ""
  | some t =>
    lead ++ "\x7b\"text\":" ++ quote t.text ++ ",\"textRange\":" ++ rangeText t.range ++
      (if t.kind = .other then "" else ",\"type\":" ++ quote t.kind.name) ++ "\x7d"

end LosslessGo
