import LosslessGo.Plan.Build

/-!
# Nodes for names

Identifiers, and the literals that are names, are planned in one way: as leaves over the name that they
are made of, with the name in a field. `Plan.Named` says so of a plan.
-/

namespace LosslessGo

open Go

/-- The field that holds the name a node is made of, where its type is one of names. -/
def NodeType.nameField? : NodeType → Option String
  | identifier => some "name"
  | literal => some "value"
  | _ => none

/-- The name is that of a predeclared constant. -/
def Go.Ident.IsConstant (x : Ident) : Prop := x.name = "true" ∨ x.name = "false" ∨ x.name = "nil"

/-- The planned node is one for the name `x`. -/
structure Head.Shows (h : Head) (x : Ident) : Prop where
  origin_eq : h.origin = some x.key
  literal_iff : h.type = .literal ↔ x.IsConstant
  name_eq : ∀ field, h.type.nameField? = some field →
    ∀ d o, (fieldValues d o h.fields).get? field = some (.str x.name)

/-- The planned leaf is not one for a name. -/
def LeafForm.Unnamed : LeafForm → Prop
  | .token _ => True
  | .typed type _ => type.nameField? = none

mutual

/-- Nodes of the types for names are leaves that show a name. -/
def Plan.Named : Plan → Prop
  | .absent => True
  | .leaf _ _ _ form => form.Unnamed
  | .endMark => True
  | .node _ head cover steps =>
    (head.type.nameField? = none ∧ (∀ c ∈ cover, c.type.nameField? = none) ∨
      cover = none ∧ steps = [] ∧ ∃ x, head.Shows x) ∧ NamedSteps steps
  | .clauseBody steps => NamedSteps steps
  | .firstOf first second => first.Named ∧ second.Named

/-- Nodes of the types for names are leaves in every part. -/
def NamedParts : List Part → Prop
  | [] => True
  | ⟨_, _, plan⟩ :: parts => plan.Named ∧ NamedParts parts

/-- Nodes of the types for names are leaves in every step. -/
def NamedSteps : List Step → Prop
  | [] => True
  | .opening ⟨_, _, plan⟩ :: steps => plan.Named ∧ NamedSteps steps
  | .together parts :: steps => NamedParts parts ∧ NamedSteps steps

end

end LosslessGo
