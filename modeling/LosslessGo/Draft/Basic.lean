import LosslessGo.Error
import LosslessGo.Flow.Ids
import LosslessGo.Tree.Basic

/-!
# Trees under construction

A draft is a tree that grows from the leaves up, with what is known of the file so far: the tokens
and comments made, how far comments have been placed, and the numbers handed out to nodes.

* `Build` is a step on a draft, and `Fill` one on a draft and the list of children that the next
  node gets. Both may fail, and keep what was made before.
* `Draft.add` and `Draft.stamp` are the only ways in which a tree changes.
* `Draft.enter`, `Draft.leave` and `Draft.stamp` are the only ways in which the scopes change; the
  history of a draft records them.
-/

namespace LosslessGo

/-- The file that a draft is made of, and whether disagreements with its text are errors. -/
structure Setting where
  file : SourceFile
  strict : Bool

namespace Setting

/-- The source text. -/
def source (set : Setting) : String := set.file.text

/-- The number of bytes of the source. -/
def size (set : Setting) : Nat := set.file.size

/-- The location of a span. -/
def location (set : Setting) (offset stop : Nat) : Location := set.file.location offset stop

end Setting

/-- What happened to the numbering of nodes: a function was entered or left, or a node got a number
under the key of the syntax node that it was made of. -/
inductive Event where
  | entered
  | left
  | numbered (i : NodeId) (key : Go.Key)
  deriving DecidableEq, Inhabited, Repr

/-- A tree under construction. -/
structure Draft where
  tree : Tree
  /-- The token leaves, in the order in which they were made. -/
  tokens : Array NodeId
  /-- The comment leaves, in source order. -/
  comments : Array NodeId
  /-- The number of comments that the last gap left behind. -/
  cursor : Nat
  scopes : Flow.IdScopes
  /-- How the scopes came about, the last event first. -/
  history : List Event
  deriving Inhabited, Repr

namespace Draft

/-- The draft of a file nothing is known of. -/
def empty : Draft := ⟨.empty, #[], #[], 0, .empty, []⟩

/-- The draft with one more node, at place `d.tree.size`. -/
def add (d : Draft) (n : Node) : Draft :=
  let id := d.tree.size
  { d with
    tree := d.tree.push n
    tokens := if n.token.any (·.kind.isListed) then d.tokens.push id else d.tokens }

/-- The draft after the current scope handed out a number to `key` for node `i`. -/
def stamp (d : Draft) (i : NodeId) (key : Go.Key) : Draft :=
  let number := d.scopes.current.next
  { d with
    scopes := d.scopes.assign key
    history := .numbered i key :: d.history
    tree := d.tree.modify i fun n =>
      { n with fields := n.fields.insert Node.flowIdName (.int number) } }

/-- The draft after a function was entered. -/
def enter (d : Draft) : Draft :=
  { d with scopes := d.scopes.enter, history := .entered :: d.history }

/-- The draft after the innermost function was left. -/
def leave (d : Draft) : Draft :=
  { d with scopes := d.scopes.leave.2, history := .left :: d.history }

/-- The range of a node, where there is one. -/
def rangeOf (d : Draft) (x : Option NodeId) : Option TextRange := x.map fun i => (d.tree.node i).range

/-- The type of a node. -/
def typeOf (d : Draft) (i : NodeId) : NodeType := (d.tree.node i).type

/-- The token leaves by offset, those of one offset in the order in which they were made. -/
def tokensByOffset (d : Draft) : List NodeId :=
  d.tokens.toList.mergeSort fun i j => (d.tree.node i).offset ≤ (d.tree.node j).offset

end Draft

/-- A step on a draft. -/
abbrev Build := EStateM ConvertError Draft

namespace Build

/-- Adds a node. -/
def add (n : Node) : Build NodeId := fun d => .ok d.tree.size (d.add n)

/-- Hands out a number to `key` for node `i`. -/
def stamp (i : NodeId) (key : Go.Key) : Build Unit := fun d => .ok () (d.stamp i key)

/-- The value, or the failure. -/
def ofExcept {α : Type} (x : Except ConvertError α) : Build α := fun d =>
  match x with
  | .ok a => .ok a d
  | .error e => .error e d

/-- Enters a function. -/
def enter : Build Unit := fun d => .ok () d.enter

/-- Leaves the innermost function. -/
def leave : Build (Option Flow.IdScope) := fun d => .ok d.scopes.leave.1 d.leave

end Build

/-- A draft, and the children gathered for the next node. -/
structure Filling where
  draft : Draft
  children : Array NodeId
  deriving Inhabited, Repr

/-- A step on a draft and a list of children. -/
abbrev Fill := EStateM ConvertError Filling

namespace Fill

/-- A step that gathers nothing. -/
def build {α : Type} (b : Build α) : Fill α := fun ⟨d, children⟩ =>
  match b d with
  | .ok a d => .ok a ⟨d, children⟩
  | .error e d => .error e ⟨d, children⟩

/-- Gathers a child as it is. -/
def push (i : NodeId) : Fill Unit := fun ⟨d, children⟩ => .ok () ⟨d, children.push i⟩

/-- Gathers children from none on, as a step on the draft alone. -/
def gather {α : Type} (f : Fill α) : Build (α × List NodeId) := fun d =>
  match f ⟨d, #[]⟩ with
  | .ok a ⟨d, children⟩ => .ok (a, children.toList) d
  | .error e ⟨d, _⟩ => .error e d

end Fill

end LosslessGo
