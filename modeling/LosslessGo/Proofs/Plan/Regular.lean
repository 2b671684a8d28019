import LosslessGo.Plan.Build
import LosslessGo.Plan.OfSyntax
import LosslessGo.Proofs.Go.Functions
import LosslessGo.Proofs.Tree.Fields

/-!
# Regular plans

What the plans for Go have in common, and carrying them out relies on.

* Text before the first part of a node is gathered with that part or not at all.
* Nodes of function declarations, and no others, number the nodes below them in a scope of their
  own, and a flow graph is that of the body of a function with the key of the node.
* Fields have plain names, none of them that of the field that holds the number of a node. No node
  made for a part is named by two fields (`FieldsRegular`).
* Planned leaves are tokens of the code. The end of the file is marked by a part that no field names.

`Plan.Regular` says so of a plan, with the functions that its nodes may stand for.
-/

namespace LosslessGo

open Go (Key Pos)

/-! ## Fields -/

attribute [simp] FieldValue.refs

/-- What a source takes of the nodes below a node: those under the parts with a tag, or all. -/
@[simp] def Source.share : Source → Option String
  | .made tag => some tag
  | .own => none
  | .below tag => some tag

/-- What a field takes of the nodes below its own. -/
@[simp] def FieldPlan.shares : FieldPlan → List (Option String)
  | .part tag => [some tag]
  | .cases tag => [some tag]
  | .parameters tag => [some tag]
  | .nodes sources => sources.map Source.share
  | .interior => [none]
  | .core => [none]
  | _ => []

/-- The field does not come with a node. -/
@[simp] def FieldPlan.GivesNoNode : FieldPlan → Prop
  | .given v => v.refs = []
  | _ => True

/-- The tag of the part that marks the end of the file. -/
@[simp] def endTag : String := "End"

/-- One share is all, or no part is shared out twice. -/
@[simp] def Apart (shares : List (Option String)) : Prop :=
  shares = [none] ∨ shares.Nodup ∧ none ∉ shares ∧ some endTag ∉ shares

/-- What planned fields keep to. -/
def FieldsRegular (fields : List (String × FieldPlan)) : Prop :=
  (∀ e ∈ fields, IsPlainName e.1 ∧ e.2.GivesNoNode) ∧ Apart (fields.flatMap (·.2.shares))

/-- The fields leave the number of the node alone. -/
def Head.Unnumbered (h : Head) : Prop := ∀ e ∈ h.fields, e.1 ≠ Node.flowIdName

theorem FieldsRegular.unnumbered {h : Head} (hf : FieldsRegular h.fields) : h.Unnumbered :=
  fun e he => ne_flowIdName (hf.1 e he).1

/-! ## Plans -/

variable (functions : List (Key × Go.Block))

/-- One of the functions, with a scope of its own for the nodes below. -/
structure Head.IsFunction (h : Head) (blocks : Option (List Flow.Block)) : Prop where
  type_eq : h.type = .functionDeclaration
  origin : ∃ key, h.origin = some key ∧
    ∀ bs ∈ blocks, ∃ body, (key, body) ∈ functions ∧ bs = Flow.blocksOf body
  fields : ∀ e ∈ h.fields, ∀ g, e.2 ≠ .given (.graph g)

/-- Scope and type of a planned node agree. -/
def HeadsFit (head : Head) (cover : Option Head) : Scope → Prop
  | .shared => head.type ≠ .functionDeclaration ∧ ∀ c ∈ cover, c.type ≠ .functionDeclaration
  | .own blocks => cover = none ∧ head.IsFunction functions blocks

/-- A planned leaf is no function and has no number. -/
def LeafForm.Regular : LeafForm → Prop
  | .token _ => True
  | .typed type fields => type ≠ .functionDeclaration ∧
    ∃ entries : List (String × FieldValue), fields = .ofList entries ∧
      ∀ e ∈ entries, IsPlainName e.1 ∧ e.2.refs = []

/-- The tags of the parts that steps make. -/
def stepTags (steps : List Step) : List String :=
  steps.flatMap fun
    | .opening part => [part.tag]
    | .together parts => parts.map (·.tag)

mutual

/-- What carrying out a plan relies on. Its nodes of functions are those of `functions`. -/
def Plan.Regular : Plan → Prop
  | .absent => True
  | .leaf _ _ kind form => kind.isListed = true ∧ form.Regular
  | .endMark => False
  | .node scope head cover steps =>
    (FieldsRegular head.fields ∧ (∀ c ∈ cover, FieldsRegular c.fields) ∧
      HeadsFit functions head cover scope) ∧ RegularSteps true steps
  | .clauseBody steps => endTag ∉ stepTags steps ∧ RegularSteps false steps
  | .firstOf first second => first.Regular ∧ second.Regular

/-- The plans of parts are regular, or mark the end of the file. -/
def RegularParts : List Part → Prop
  | [] => True
  | ⟨tag, _, plan⟩ :: parts =>
    (plan.Regular ∨ tag = endTag ∧ plan = .endMark) ∧ RegularParts parts

/-- The plans of steps are regular, and only the first step may gather text before its part. -/
def RegularSteps (first : Bool) : List Step → Prop
  | [] => True
  | .opening ⟨_, _, plan⟩ :: steps => first = true ∧ plan.Regular ∧ RegularSteps false steps
  | .together parts :: steps => RegularParts parts ∧ RegularSteps false steps

end

variable {functions}

theorem regularSteps_opening {first : Bool} {part : Part} {steps : List Step} :
    RegularSteps functions first (.opening part :: steps) ↔
      first = true ∧ part.plan.Regular functions ∧ RegularSteps functions false steps := by
  cases part
  rfl

end LosslessGo
