import LosslessGo.Proofs.Draft.Placed

/-!
# Drafts under any operations

A draft is open to operations in any order and with any arguments, as long as the nodes they name are
there. An operation may fail part of the way; what it made until then stays, and the next one goes on
from there.

* `Operation`, `Operation.step`: what can be done to a draft.
* `runOperations?_keeps`: what every operation keeps, any sequence of them keeps.
* `Operation.after_placed`: an operation leaves every node in its place, however it ends.
* `Draft.placed_of_operations`: so does any sequence of operations.
-/

namespace LosslessGo

open Go (Key Pos Lexeme)

/-- An operation on a draft. One that gathers a child or fills a gap is given the children gathered
before, in a list of any origin. -/
inductive Operation where
  | leaf (offset stop : Nat) (kind : TokenKind) (type : NodeType) (fields : Fields)
  | token (offset stop : Nat) (label : String) (kind : TokenKind)
  | expectedLeaf (offset : Nat) (expected : String) (kind : TokenKind) (type : NodeType)
      (fields : Fields)
  | expectedToken (offset : Nat) (expected label : String) (kind : TokenKind)
  | lexeme (pos : Option Pos) (word : Lexeme) (label : String)
  | comments (cs : List Go.Comment)
  | node (origin : Option Key) (type : NodeType) (fields : Fields) (children : List NodeId)
  | native (origin : Option Key) (label : String) (children : List NodeId)
  | number (i : NodeId) (key : Key)
  | enter
  | leave
  | append (children : List NodeId) (x : Option NodeId)
  | appendAll (children : List NodeId) (xs : List (Option NodeId))
  | gap (children : List NodeId) (offset stop : Nat)
  | missing (children : List NodeId) (offset stop : Nat)
  | endMark (children : List NodeId)
  deriving DecidableEq, Repr

/-- Gathers further children behind the given ones, as a step on the draft alone. -/
def Fill.onto {α : Type} (children : List NodeId) (x : Fill α) : Build Unit := fun d =>
  match x ⟨d, children.toArray⟩ with
  | .ok _ f => .ok () f.draft
  | .error e f => .error e f.draft

namespace Operation

/-- The nodes that an operation names. -/
def nodes : Operation → List NodeId
  | .node _ _ _ children | .native _ _ children => children
  | .number i _ => [i]
  | .append children x => x.toList ++ children
  | .appendAll children xs => xs.reduceOption ++ children
  | .gap children _ _ | .missing children _ _ | .endMark children => children
  | .leaf .. | .token .. | .expectedLeaf .. | .expectedToken .. | .lexeme .. | .comments _ | .enter
  | .leave => []

/-- An operation as a step on the draft alone. -/
def step (set : Setting) : Operation → Build Unit
  | .leaf offset stop kind type fields => discard (Build.leaf set offset stop kind type fields)
  | .token offset stop label kind => discard (Build.token set offset stop label kind)
  | .expectedLeaf offset expected kind type fields =>
    discard (Build.expectedLeaf set offset expected kind type fields)
  | .expectedToken offset expected label kind =>
    discard (Build.expectedToken set offset expected label kind)
  | .lexeme pos word label => discard (Build.lexeme set pos word label)
  | .comments cs => Build.comments set cs
  | .node origin type fields children => discard (Build.node set origin type fields children)
  | .native origin label children => discard (Build.native set origin label children)
  | .number i key => Build.stamp i key
  | .enter => Build.enter
  | .leave => discard Build.leave
  | .append children x => Fill.onto children (Fill.append set x)
  | .appendAll children xs => Fill.onto children (Fill.appendAll set xs)
  | .gap children offset stop => Fill.onto children (Fill.gap set offset stop)
  | .missing children offset stop => Fill.onto children (Fill.missing set offset stop)
  | .endMark children =>
    Fill.onto children (do Fill.append set (← Fill.build (Build.endMark set)))

/-- The draft after an operation, in success or failure. -/
def after (set : Setting) (op : Operation) (d : Draft) : Draft := stateAfter (op.step set) d

end Operation

/-- The draft after operations one after the other, if each names nodes that are there by then. -/
def runOperations? (set : Setting) : List Operation → Draft → Option Draft
  | [], d => some d
  | op :: ops, d =>
    if ∀ i ∈ op.nodes, i < d.tree.size then runOperations? set ops (op.after set d) else none

variable {set : Setting} {d d' : Draft}

theorem Fill.onto_ends {α : Type} {P : Draft → Prop} {children : List NodeId} {x : Fill α}
    (h : Ends x ⟨d, children.toArray⟩ fun f => P f.draft) : Ends (Fill.onto children x) d P := by
  unfold Ends stateAfter at h ⊢
  simp only [Fill.onto]
  cases hx : x ⟨d, children.toArray⟩ <;> rw [hx] at h <;> exact h

/-- What every operation keeps, a sequence of operations keeps. -/
theorem runOperations?_keeps {P : Draft → Prop} {ops : List Operation}
    (hop : ∀ {op : Operation} {d : Draft}, P d → (∀ i ∈ op.nodes, i < d.tree.size) → P (op.after set d))
    (h : P d) (hrun : runOperations? set ops d = some d') : P d' := by
  induction ops generalizing d with
  | nil =>
    cases hrun
    exact h
  | cons op ops ih =>
    rw [runOperations?] at hrun
    split at hrun
    · exact ih (hop h ‹_›) hrun
    · cases hrun

/-- An operation leaves every node in its place, however it ends. -/
theorem Operation.after_placed {op : Operation} (h : d.Placed set)
    (hnodes : ∀ i ∈ op.nodes, i < d.tree.size) : (op.after set d).Placed set := by
  change Ends (op.step set) d (Draft.Placed set)
  cases op with
  | leaf | token => exact .map (Build.leaf_ends h)
  | expectedLeaf | expectedToken => exact .map (Build.expectedLeaf_ends h)
  | lexeme => exact .map (Build.lexeme_ends h)
  | comments cs => exact Build.comments_ends cs h
  | node => exact .map (Build.node_ends h hnodes)
  | native => exact .map (.get (Build.node_ends h hnodes))
  | number i key => exact h.stamp i key
  | enter | leave => exact h.of_tree_eq rfl
  | append => exact Fill.onto_ends (Fill.append_ends h)
  | appendAll _ xs => exact Fill.onto_ends (Fill.appendAll_ends xs h)
  | gap => exact Fill.onto_ends (Fill.gap_ends h)
  | missing => exact Fill.onto_ends (Fill.missing_ends h)
  | endMark =>
    exact Fill.onto_ends (.seq (Fill.build_ends (Build.leaf_ends h)) fun _ _ h₁ => Fill.append_ends h₁)

theorem Draft.Placed.run {ops : List Operation} (h : d.Placed set)
    (hrun : runOperations? set ops d = some d') : d'.Placed set :=
  runOperations?_keeps Operation.after_placed h hrun

/-- Whatever is done to a draft, in any order and with failures, every node is in its place. -/
theorem Draft.placed_of_operations {ops : List Operation} (h : runOperations? set ops .empty = some d) :
    ∀ i < d.tree.size, (d.tree.node i).Placed set :=
  Draft.Placed.empty.run h

/-- A file in lenient mode whose source holds carriage returns and characters of several bytes. -/
def returnsSetting : Setting := ⟨.ofText "r.go" "fu\r\nnc é /*c\r\n*/ , b\r\n", false⟩

/-- Operations on `returnsSetting`. The last three add nothing: one fails, one finds another text, and
one goes past the end. -/
def returnsOperations : List Operation :=
  [.comments [⟨10, "/*c\n*/"⟩], .expectedToken 0 "fu\nnc" "" .keyword, .token 7 9 "" .other,
    .token 20 21 "" .other, .node (some ⟨.ident, 7, 9⟩) .identifier .empty [2, 0],
    .append [1] (some 4), .appendAll [2] [none, some 3, some 1], .endMark [4], .gap [4] 9 20,
    .native none "" [3, 1], .token 8 9 "" .other, .expectedToken 3 "é" "" .other, .missing [] 5 90]

theorem Draft.placed_of_operations_returns :
    ∃ d, runOperations? returnsSetting returnsOperations .empty = some d ∧ 8 < d.tree.size ∧
      ∀ i < d.tree.size, (d.tree.node i).Placed returnsSetting := by
  have hrun : (runOperations? returnsSetting returnsOperations .empty).any
      (fun d => 8 < d.tree.size) = true := by
    decide +kernel
  obtain ⟨d, hd, hsize⟩ := (Option.any_eq_true ..).mp hrun
  exact ⟨d, hd, of_decide_eq_true hsize, Draft.placed_of_operations hd⟩

end LosslessGo
