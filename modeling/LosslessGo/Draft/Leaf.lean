import LosslessGo.Draft.Basic
import LosslessGo.Go.Lexeme
import LosslessGo.Go.Span

/-!
# Leaves and nodes of a draft

* `leafNode?`: the leaf over a span of the source. A span outside of the source is an error in
  either mode, an empty one in strict mode only.
* `expectedStop?`: where a token of known spelling ends. A source that shows another text is an
  error in strict mode, and shows no such token otherwise.
* `Build.node`: the node over gathered children, or the leaf over its origin where there are none.
-/

namespace LosslessGo

open Go (Key Pos Lexeme)

/-- Line and column of an offset, which must not be past the source. -/
def SourceFile.position (f : SourceFile) (offset : Nat) : Except ConvertError (Nat × Nat) :=
  match f.lines.position? offset with
  | some p => .ok p
  | none => .error (.invalidOffset (f.location offset offset))

/-- The range of a span, which must not be past the source. -/
def SourceFile.range (f : SourceFile) (offset stop : Nat) : Except ConvertError TextRange := do
  let (startLine, startColumn) ← f.position offset
  let (endLine, endColumn) ← f.position stop
  return ⟨startLine, startColumn, endLine, endColumn⟩

/-- The leaf over a span of the source. -/
def leafNode? (set : Setting) (offset stop : Nat) (kind : TokenKind) (type : NodeType)
    (fields : Fields) : Except ConvertError (Option Node) :=
  if stop < offset ∨ set.size < stop then .error (.invalidToken (set.location offset stop))
  else if offset = stop ∧ kind ≠ .endOfFile then
    if set.strict then .error (.emptyToken (set.location offset stop)) else .ok none
  else
    match Text.slice? set.source offset stop with
    | none => .error (.invalidToken (set.location offset stop))
    | some text =>
      (set.file.range offset stop).map fun range =>
        some ⟨type, range, offset, stop, some ⟨text, range, kind⟩, [], fields⟩

/-- Where a token spelled `expected` at `offset` ends, if the source shows it. -/
def expectedStop? (set : Setting) (offset : Nat) (expected : String) :
    Except ConvertError (Option Nat) :=
  let (stop, spelling) := set.file.lines.spanOf offset expected
  if set.size < stop then .error (.invalidToken (set.location offset stop))
  else
    let actual := Text.slice set.source offset stop
    if actual = spelling then .ok (some stop)
    else if set.strict then .error (.tokenValue actual spelling (set.location offset stop))
    else .ok none

/-- The value of the field that holds a native kind; an empty one is left out. -/
def nativeKindValue (label : String) : FieldValue :=
  if label = "" then .suppressed else .str label

/-- The fields of a token of the native kind `label`. -/
def tokenFields (label : String) : Fields := .ofList [(Node.nativeKindName, nativeKindValue label)]

/-- The node over children from `first` to `last`. -/
def innerNode (t : Tree) (first last : NodeId) (children : List NodeId) (type : NodeType)
    (fields : Fields) : Node :=
  ⟨type, .span (t.node first).range (t.node last).range, (t.node first).offset,
    (t.node last).stop, none, children, fields⟩

namespace Build

/-- Adds the leaf over a span of the source. -/
def leaf (set : Setting) (offset stop : Nat) (kind : TokenKind) (type : NodeType)
    (fields : Fields) : Build (Option NodeId) := do
  match ← ofExcept (leafNode? set offset stop kind type fields) with
  | some n => some <$> add n
  | none => pure none

/-- Adds a token leaf over a span of the source. -/
def token (set : Setting) (offset stop : Nat) (label : String) (kind : TokenKind) :
    Build (Option NodeId) :=
  leaf set offset stop kind .native (tokenFields label)

/-- Adds a leaf of known spelling. -/
def expectedLeaf (set : Setting) (offset : Nat) (expected : String) (kind : TokenKind)
    (type : NodeType) (fields : Fields) : Build (Option NodeId) := do
  match ← ofExcept (expectedStop? set offset expected) with
  | some stop => leaf set offset stop kind type fields
  | none => pure none

/-- Adds a token leaf of known spelling. -/
def expectedToken (set : Setting) (offset : Nat) (expected : String) (label : String)
    (kind : TokenKind) : Build (Option NodeId) :=
  expectedLeaf set offset expected kind .native (tokenFields label)

/-- Adds a leaf for an operator or keyword that the source shows at a position. -/
def lexeme (set : Setting) (pos : Option Pos) (word : Lexeme) (label : String) :
    Build (Option NodeId) :=
  match pos with
  | none => pure none
  | some p =>
    expectedToken set p.toNat word.text label (if word.isKeyword then .keyword else .other)

/-- Adds the end of the file. -/
def endMark (set : Setting) : Build (Option NodeId) := token set set.size set.size "" .endOfFile

/-- Adds the node over gathered children, or the leaf over its origin where there are none. A node
with an origin gets a number. -/
def node (set : Setting) (origin : Option Key) (type : NodeType) (fields : Fields)
    (children : List NodeId) : Build (Option NodeId) :=
  match children with
  | first :: _ => do
    let last := children.getLastD first
    let d ← get
    let i ← add (innerNode d.tree first last children type fields)
    if let some key := origin then stamp i key
    return some i
  | [] =>
    match origin with
    | none => pure none
    | some key => do
      match ← leaf set key.start.toNat key.stop.toNat .other type fields with
      | some i =>
        stamp i key
        return some i
      | none => return none

/-- The fields of a node that is known by its native kind alone. -/
def nativeFields (d : Draft) (children : List NodeId) (label : String) : Fields :=
  .ofList [(Node.childrenName, .nodes (d.tree.visible children)),
    (Node.nativeKindName, nativeKindValue label)]

/-- Adds a node that is known by its native kind alone. -/
def native (set : Setting) (origin : Option Key) (label : String) (children : List NodeId) :
    Build (Option NodeId) := do
  let d ← get
  node set origin .native (nativeFields d children label) children

/-- Adds one leaf for each comment. -/
def comments (set : Setting) : List Go.Comment → Build Unit
  | [] => pure ()
  | c :: cs => do
    if let some i ← expectedToken set c.pos.toNat c.text "" .comment then
      modify fun d => { d with comments := d.comments.push i }
    comments set cs

end Build

end LosslessGo
