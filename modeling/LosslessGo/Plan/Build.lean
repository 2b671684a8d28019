import LosslessGo.Draft.Gap
import LosslessGo.Plan.Basic

/-!
# Carrying out plans

* `Plan.build` makes the node of a plan.
* `runSteps` gathers the children of a node, step by step.
* `fieldValue` fills in a field from what was made.
-/

namespace LosslessGo

/-- The nodes made for the parts of a node, by tag. -/
abbrev Made := List (String × Option NodeId)

namespace Made

/-- The node made for a part. -/
def part (m : Made) (tag : String) : Option NodeId := (m.lookup tag).join

/-- The nodes made for the parts with a tag. -/
def parts (m : Made) (tag : String) : List NodeId :=
  m.filterMap fun (t, x) => if t = tag then x else none

end Made

/-- The items at even places. -/
def evens {α : Type} : List α → List α
  | [] => []
  | [x] => [x]
  | x :: _ :: xs => x :: evens xs

/-- The items between the first and the last. -/
def between {α : Type} (xs : List α) : List α := xs.tail.dropLast

/-- The item before the last occurrence of `x`. -/
def itemBefore? (xs : List NodeId) (x : NodeId) : Option NodeId :=
  match xs with
  | a :: b :: rest => (itemBefore? (b :: rest) x).or (if b = x then some a else none)
  | _ => none

/-- What a node was made of. -/
structure Outcome where
  label : String
  made : Made
  children : List NodeId
  graph : Option Flow.Graph
  core : Option NodeId

/-- The nodes of a source. -/
def sourceNodes (d : Draft) (o : Outcome) : Source → List NodeId
  | .made tag => o.made.parts tag
  | .own => d.tree.visible o.children
  | .below tag => ((o.made.part tag).map fun i => d.tree.visible (d.tree.children i)).getD []

/-- The parameters of a list: of each visible child, delimiters apart, the children at even
places. -/
def parametersOf (d : Draft) (list : NodeId) : List NodeId :=
  (between (d.tree.visible (d.tree.children list))).flatMap fun i =>
    evens (d.tree.visible (d.tree.children i))

/-- The value of a field. -/
def fieldValue (d : Draft) (o : Outcome) : FieldPlan → FieldValue
  | .given v => v
  | .naming n => nativeKindValue (n.text o.label)
  | .part tag => .node (o.made.part tag)
  | .range tag => .range (d.rangeOf (o.made.part tag))
  | .nodes sources => .nodes (sources.flatMap (sourceNodes d o))
  | .interior => .nodes (d.tree.visible (between o.children))
  | .cases tag =>
    .nodes ((sourceNodes d o (.below tag)).filter fun i => d.typeOf i = .matchCase)
  | .parameters tag => .nodes (((o.made.part tag).map (parametersOf d)).getD [])
  | .keywordBefore tag =>
    match (o.made.part tag).bind (itemBefore? (d.tree.visible o.children)) with
    | some i => .range (d.rangeOf (some i))
    | none => .null
  | .graph => .graph o.graph
  | .core => .node o.core

/-- The fields of a node. -/
def fieldValues (d : Draft) (o : Outcome) (fields : List (String × FieldPlan)) : Fields :=
  .ofList (fields.map fun (name, f) => (name, fieldValue d o f))

/-- The statements of a clause as they are: the only one where it is a block. -/
def soleBlock? (d : Draft) (visible : List NodeId) : Option NodeId :=
  match visible with
  | [i] => if d.typeOf i = .block then some i else none
  | _ => none

namespace Build

/-- Makes a planned node over children. -/
def head (set : Setting) (o : Outcome) (h : Head) (children : List NodeId) :
    Build (Option NodeId) := do
  let d ← get
  node set h.origin h.type (fieldValues d o h.fields) children

/-- Enters the scope of the nodes below. -/
def enterScope (s : Scope) : Build Unit :=
  match s with
  | .shared => pure ()
  | .own _ => enter

/-- Leaves the scope of the nodes below, and gives the graph of the function's body. -/
def leaveScope (s : Scope) : Build (Option Flow.Graph) :=
  match s with
  | .shared => pure none
  | .own body => do
    let scope ← leave
    return scope.bind fun ids => body.map fun blocks => .ofBlocks blocks ids

/-- Makes a leaf. -/
def planned (set : Setting) (label : String) (pos : Go.Pos) (text : String) (kind : TokenKind)
    (form : LeafForm) : Build (Option NodeId) :=
  match form with
  | .token n => expectedToken set pos.toNat text (n.text label) kind
  | .typed type fields => expectedLeaf set pos.toNat text kind type fields

/-- Makes the node for the statements of a clause. -/
def clauseBlock (set : Setting) (children : List NodeId) : Build (Option NodeId) := do
  let d ← get
  let visible := d.tree.visible children
  match soleBlock? d visible with
  | some i => pure (some i)
  | none =>
    node set none .block (.ofList [("statementOrExpressions", .nodes visible)]) children

end Build

mutual

/-- Makes the node of a plan. -/
def Plan.build (set : Setting) (label : String) : Plan → Build (Option NodeId)
  | .absent => pure none
  | .leaf pos text kind form => Build.planned set label pos text kind form
  | .endMark => Build.endMark set
  | .node scope head cover steps => do
    Build.enterScope scope
    let (made, children) ← Fill.gather (runSteps set steps [])
    let graph ← Build.leaveScope scope
    let o : Outcome := ⟨label, made, children, graph, none⟩
    let core ← Build.head set o head children
    match cover with
    | none => pure core
    | some outer => Build.head set { o with core } outer core.toList
  | .clauseBody steps => do
    let (_, children) ← Fill.gather (runSteps set steps [])
    Build.clauseBlock set children
  | .firstOf first second => do
    match ← first.build set label with
    | some i => pure (some i)
    | none => second.build set label

/-- Makes parts in order. -/
def buildParts (set : Setting) : List Part → Build Made
  | [] => pure []
  | ⟨tag, label, plan⟩ :: parts => do
    let x ← plan.build set label
    let made ← buildParts set parts
    return (tag, x) :: made

/-- Gathers children step by step, after those made before. -/
def runSteps (set : Setting) : List Step → Made → Fill Made
  | [], made => pure made
  | .opening ⟨tag, label, plan⟩ :: steps, made => do
    let x ← Fill.build (plan.build set label)
    if let some i := x then Fill.appendFrom set 0 i
    runSteps set steps (made ++ [(tag, x)])
  | .together parts :: steps, made => do
    let new ← Fill.build (buildParts set parts)
    Fill.appendAll set (new.map (·.2))
    runSteps set steps (made ++ new)

end

end LosslessGo
