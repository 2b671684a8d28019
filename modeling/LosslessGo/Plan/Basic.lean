import LosslessGo.Flow.Build
import LosslessGo.Tree.Fields
import LosslessGo.Tree.NodeType

/-!
# Plans

A plan says how a piece of syntax becomes a node of a tree: which tokens and nodes are made, in
which order, and what the fields of the node hold. A plan looks neither at the source text nor at
the tree made so far.

The node of a plan is known to the field that it is for by a label, which is given when the plan
is carried out. So the parts of a construct can be planned once, whichever node they end up under.
-/

namespace LosslessGo

open Go (Key Pos)

/-- How the native kind of a node follows from its label. -/
inductive Naming where
  /-- The label itself. -/
  | label
  /-- The label, with a kind in parentheses. -/
  | within (kind : String)
  /-- A text of its own, whatever the label. -/
  | fixed (text : String)
  deriving DecidableEq, Inhabited, Repr

/-- The native kind of a node with a label. -/
def Naming.text (label : String) : Naming → String
  | .label => label
  | .within kind => label ++ "(" ++ kind ++ ")"
  | .fixed text => text

/-- Where the nodes of a field come from. -/
inductive Source where
  /-- The nodes made for the parts with a tag. -/
  | made (tag : String)
  /-- The visible children of the node itself. -/
  | own
  /-- The visible children of the node made for a part. -/
  | below (tag : String)
  deriving DecidableEq, Inhabited, Repr

/-- What a field of a planned node holds. -/
inductive FieldPlan where
  | given (v : FieldValue)
  /-- The native kind. -/
  | naming (n : Naming)
  /-- The node made for a part. -/
  | part (tag : String)
  /-- The range of the node made for a part. -/
  | range (tag : String)
  | nodes (sources : List Source)
  /-- The visible children between the first child and the last. -/
  | interior
  /-- The clauses among the visible children of a part. -/
  | cases (tag : String)
  /-- The parameters in a list: of each visible child of the part, delimiters apart, the children
  at even places. -/
  | parameters (tag : String)
  /-- The range of the visible child before a part. -/
  | keywordBefore (tag : String)
  /-- The flow graph of the function's body. -/
  | graph
  /-- The node under a cover. -/
  | core
  deriving DecidableEq, Inhabited, Repr

/-- Which scope the numbers of the nodes below come from. -/
inductive Scope where
  | shared
  /-- A scope of their own, with the blocks of the function's body. -/
  | own (body : Option (List Flow.Block))
  deriving DecidableEq, Inhabited, Repr

/-- A planned node: the syntax it comes from, its type and its fields. -/
structure Head where
  origin : Option Key
  type : NodeType
  fields : List (String × FieldPlan)
  deriving DecidableEq, Inhabited, Repr

/-- The type and fields of a planned leaf. -/
inductive LeafForm where
  /-- A token of a native kind. -/
  | token (n : Naming)
  | typed (type : NodeType) (fields : Fields)
  deriving DecidableEq, Inhabited, Repr

mutual

/-- How a piece of syntax becomes a node. -/
inductive Plan where
  /-- No node. -/
  | absent
  /-- A leaf of known spelling. -/
  | leaf (pos : Pos) (text : String) (kind : TokenKind) (form : LeafForm)
  /-- The end of the file. -/
  | endMark
  /-- A node over the children that the steps gather. A cover is a second node, over the first. -/
  | node (scope : Scope) (head : Head) (cover : Option Head) (steps : List Step)
  /-- The statements of a clause: a block, or the only statement where it is a block. -/
  | clauseBody (steps : List Step)
  /-- The second plan where the first one makes no node. -/
  | firstOf (first second : Plan)

/-- What gathers children. -/
inductive Step where
  /-- A part behind all text of the source that comes before it. -/
  | opening (part : Part)
  /-- Parts that are all made before the first is gathered. -/
  | together (parts : List Part)

/-- A plan for a part of a node, with the tag by which fields refer to the part. -/
structure Part where
  tag : String
  label : String
  plan : Plan

end

instance : Inhabited Plan := ⟨.absent⟩

namespace Plan

/-- A leaf for an operator or keyword, where the source shows one. -/
def lexeme (pos : Option Pos) (word : Go.Lexeme) : Plan :=
  match pos with
  | some p => .leaf p word.text (if word.isKeyword then .keyword else .other) (.token .label)
  | none => .absent

/-- The plan for a part of a construct, where the construct has the part. -/
def option (p : Option Plan) : Plan := p.getD .absent

/-- A node of a construct. -/
def typed (key : Key) (type : NodeType) (fields : List (String × FieldPlan)) (steps : List Step) :
    Plan :=
  .node .shared ⟨some key, type, fields⟩ none steps

/-- The fields of a node that is known by its native kind alone. -/
def nativeFields (n : Naming) : List (String × FieldPlan) :=
  [("children", .nodes [.own]), ("nativeKind", .naming n)]

/-- A node over a group of parts, known by its native kind alone. -/
def group (label : String) (steps : List Step) : Plan :=
  .node .shared ⟨none, .native, nativeFields (.fixed label)⟩ none steps

end Plan

namespace Step

/-- A part whose tag is its label. -/
def one (label : String) (p : Plan) : Step := .together [⟨label, label, p⟩]

/-- A part with a tag of its own. -/
def tagged (tag label : String) (p : Plan) : Step := .together [⟨tag, label, p⟩]

end Step

/-- The label of the item at place `i` of a list. -/
def itemLabel (i : Nat) : String := s!"[{i}]"

/-- The items of a list as parts with one tag. -/
def itemParts (tag : String) (ps : List Plan) : List Part :=
  ps.zipIdx.map fun (p, i) => ⟨tag, itemLabel i, p⟩

/-- The items of a list, each gathered before the next one is made. -/
def itemSteps (tag : String) (ps : List Plan) : List Step :=
  (itemParts tag ps).map fun p => .together [p]

end LosslessGo
