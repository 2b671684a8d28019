import LosslessGo.Text.Slice
import LosslessGo.Tree.Fields
import LosslessGo.Tree.NodeType

/-!
# Trees

A tree is a list of nodes that refer to each other by place. It grows at the end only: a node
stands after all its children.

* `Tree.push` adds a node, `Tree.node` finds one.
* `Tree.visible` leaves out comments and the end of the file.
* The accessors `nodeField`, `nodesField`, `strField`, `nativeKind` and `flowId` read fields.
-/

namespace LosslessGo

/-- A node of a tree. It spans the source from `offset` to `stop`, and is a leaf where it has a
token. -/
structure Node where
  type : NodeType
  range : TextRange
  offset : Nat
  stop : Nat
  token : Option Token
  children : List NodeId
  fields : Fields
  deriving DecidableEq, Inhabited, Repr

namespace Node

/-- Whether the node holds a token. -/
def isLeaf (n : Node) : Bool := n.token.isSome

/-- Whether the node holds a comment. -/
def isComment (n : Node) : Bool := n.token.any (·.kind = .comment)

/-- Whether the node is neither a comment nor the end of the file. -/
def isVisible (n : Node) : Bool := n.token.all (·.kind.isListed)

/-- The value of a field. -/
def field? (n : Node) (name : String) : Option FieldValue := n.fields.get? name

/-- The node that a field refers to. -/
def nodeField (n : Node) (name : String) : Option NodeId :=
  match n.field? name with
  | some (.node x) => x
  | _ => none

/-- The nodes that a field lists. -/
def nodesField (n : Node) (name : String) : List NodeId :=
  match n.field? name with
  | some (.nodes xs) => xs
  | _ => []

/-- The text of a field. -/
def strField (n : Node) (name : String) : Option String :=
  match n.field? name with
  | some (.str s) => some s
  | _ => none

/-- The name of the field that lists the visible children. -/
def childrenName : String := "children"

/-- The name of the field that holds the native kind. -/
def nativeKindName : String := "nativeKind"

/-- The name of the field that holds the number by which flow graphs refer to the node. -/
def flowIdName : String := "__cfgId"

/-- The native kind of a node without a construct of its own. -/
def nativeKind (n : Node) : Option String := n.strField nativeKindName

/-- The number by which flow graphs refer to the node. -/
def flowId (n : Node) : Option Int :=
  match n.field? flowIdName with
  | some (.int i) => some i
  | _ => none

end Node

/-- Nodes by place. -/
structure Tree where
  nodes : Array Node
  deriving Inhabited, Repr

namespace Tree

/-- The tree without nodes. -/
def empty : Tree := ⟨#[]⟩

/-- The number of nodes. -/
def size (t : Tree) : Nat := t.nodes.size

/-- The node at place `i`. -/
def node (t : Tree) (i : NodeId) : Node := t.nodes.getD i default

/-- The tree with one more node, at place `t.size`. -/
def push (t : Tree) (n : Node) : Tree := ⟨t.nodes.push n⟩

/-- The tree with the node at place `i` changed. -/
def modify (t : Tree) (i : NodeId) (f : Node → Node) : Tree := ⟨t.nodes.modify i f⟩

/-- The children of the node at place `i`. -/
def children (t : Tree) (i : NodeId) : List NodeId := (t.node i).children

/-- Those of the given nodes that are neither comments nor the end of the file. -/
def visible (t : Tree) (is : List NodeId) : List NodeId := is.filter fun i => (t.node i).isVisible

/-- The source text under a node. -/
def text (t : Tree) (source : String) (i : NodeId) : String :=
  Text.slice source (t.node i).offset (t.node i).stop

end Tree

end LosslessGo
