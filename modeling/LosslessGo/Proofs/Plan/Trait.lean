import LosslessGo.Proofs.Plan.Named
import LosslessGo.Proofs.Plan.Regular

/-!
# Traits of plans

A property of plans that passes from the parts of a plan to the plan, if the plan is made the way those
for Go are. `Plan.Trait` lists the ways, with all that is known of nodes and leaves there, so that one
recursion on the syntax tree serves every such property.

* `Plan.Trait.typed`, `Plan.Trait.native`, `Plan.Trait.orNative`, `Plan.Trait.group`: the plans of which
  those for Go are composed.
* `Plan.Trait.regular`, `Plan.Trait.named`: regular plans, and plans with names in leaves only.
-/

namespace LosslessGo

open Go (Key Pos Ident Child Children)

/-- Every plan in a field satisfies `P`. -/
def Go.Child.All (P : Plan → Prop) : Go.Child Plan → Prop
  | .token .. => True
  | .scalar => True
  | .one _ x => ∀ p ∈ x, P p
  | .many _ xs => ∀ p ∈ xs, P p

/-! ## Nodes and steps -/

/-- Nodes of the type are made for constructs that are neither functions nor names. -/
def NodeType.isPlain : NodeType → Bool
  | functionDeclaration | identifier | literal => false
  | _ => true

theorem NodeType.ne_function_of_isPlain {type : NodeType} (h : type.isPlain = true) :
    type ≠ functionDeclaration := by
  rintro rfl
  cases h

theorem NodeType.nameField?_of_isPlain {type : NodeType} (h : type.isPlain = true) :
    type.nameField? = none := by
  cases type <;> first | rfl | cases h

theorem fieldsRegular_native {n : Naming} : FieldsRegular (Plan.nativeFields n) := by
  simp [FieldsRegular, Plan.nativeFields]

/-- What is known of a planned node that is not for a name, and of the one that covers it. -/
structure HeadsKnown (functions : List (Key × Go.Block)) (scope : Scope) (head : Head)
    (cover : Option Head) : Prop where
  fields : FieldsRegular head.fields
  coverFields : ∀ c ∈ cover, FieldsRegular c.fields
  fit : HeadsFit functions head cover scope
  unnamed : head.type.nameField? = none
  coverUnnamed : ∀ c ∈ cover, c.type.nameField? = none

/-- The plans of parts satisfy `P`, or mark the end of the file. -/
def PartsHold (P : Plan → Prop) (parts : List Part) : Prop :=
  ∀ part ∈ parts, P part.plan ∨ part.tag = endTag ∧ part.plan = .endMark

/-- The plans of steps satisfy `P`, and only the first step may gather text before its part. -/
def StepsHold (P : Plan → Prop) (first : Bool) : List Step → Prop
  | [] => True
  | .opening part :: steps => first = true ∧ P part.plan ∧ StepsHold P false steps
  | .together parts :: steps => PartsHold P parts ∧ StepsHold P false steps

section Steps

variable {P : Plan → Prop} {first : Bool} {tag label : String} {p : Plan} {ps : List Plan}
  {parts : List Part} {steps steps' : List Step} {functions : List (Key × Go.Block)}

@[simp] theorem stepsHold_nil : StepsHold P first [] := trivial

@[simp] theorem stepsHold_opening {part : Part} :
    StepsHold P first (.opening part :: steps) ↔
      first = true ∧ P part.plan ∧ StepsHold P false steps := Iff.rfl

theorem forall_mem_itemParts {P : Plan → Prop} :
    (∀ part ∈ itemParts tag ps, P part.plan) ↔ ∀ p ∈ ps, P p := by
  rw [itemParts]
  constructor
  · intro h p hp
    obtain ⟨i, hi, rfl⟩ := List.mem_iff_getElem.mp hp
    exact h ⟨tag, itemLabel i, ps[i]⟩
      (List.mem_map.mpr ⟨(ps[i], i), List.mem_zipIdx_iff_getElem?.mpr (by simp [hi]), rfl⟩)
  · intro h part hpart
    obtain ⟨⟨p, i⟩, hp, rfl⟩ := List.mem_map.mp hpart
    exact h p (List.mem_of_getElem? (List.mem_zipIdx_iff_getElem?.mp hp))

theorem tag_of_mem_itemParts {part : Part} (h : part ∈ itemParts tag ps) : part.tag = tag := by
  obtain ⟨_, _, rfl⟩ := List.mem_map.mp h
  rfl

@[simp] theorem stepsHold_together :
    StepsHold P first (.together parts :: steps) ↔ PartsHold P parts ∧ StepsHold P false steps :=
  Iff.rfl

theorem PartsHold.of_forall (h : ∀ part ∈ parts, P part.plan) : PartsHold P parts :=
  fun part hpart => .inl (h part hpart)

@[simp] theorem partsHold_nil : PartsHold P [] := List.forall_mem_nil _

@[simp] theorem partsHold_cons (h : tag ≠ "End") :
    PartsHold P (⟨tag, label, p⟩ :: parts) ↔ P p ∧ PartsHold P parts := by
  rw [PartsHold, List.forall_mem_cons]
  exact and_congr_left' (or_iff_left fun hend => h hend.1)

theorem partsHold_itemParts (h : tag ≠ "End") : PartsHold P (itemParts tag ps) ↔ ∀ p ∈ ps, P p := by
  rw [← forall_mem_itemParts]
  exact forall₂_congr fun part hpart =>
    or_iff_left fun hend => h (tag_of_mem_itemParts hpart ▸ hend.1)

@[simp] theorem stepsHold_tagged (h : tag ≠ "End") :
    StepsHold P first (.tagged tag label p :: steps) ↔ P p ∧ StepsHold P false steps := by
  simp [Step.tagged, h]

@[simp] theorem stepsHold_one (h : label ≠ "End") :
    StepsHold P first (.one label p :: steps) ↔ P p ∧ StepsHold P false steps :=
  stepsHold_tagged h

@[simp] theorem stepsHold_endMark : StepsHold P first [.one "End" .endMark] :=
  ⟨by simp [PartsHold], trivial⟩

@[simp] theorem stepsHold_append :
    StepsHold P false (steps ++ steps') ↔ StepsHold P false steps ∧ StepsHold P false steps' := by
  induction steps with
  | nil => simp
  | cons s steps ih =>
    cases s with
    | opening part => simp
    | together parts => simp [ih, and_assoc]

theorem StepsHold.mono (h : StepsHold P false steps) : StepsHold P first steps := by
  cases steps with
  | nil => trivial
  | cons s steps =>
    cases s with
    | opening part => simp at h
    | together parts => exact h

@[simp] theorem stepsHold_itemSteps (h : tag ≠ "End") :
    StepsHold P false (itemSteps tag ps) ↔ ∀ p ∈ ps, P p := by
  rw [itemSteps, ← partsHold_itemParts h]
  induction itemParts tag ps with
  | nil => simp [PartsHold]
  | cons part parts ih => simp [ih, PartsHold]

@[simp] theorem notMem_stepTags_itemSteps (h : tag ≠ "End") :
    "End" ∉ stepTags (itemSteps tag ps) := by
  simp only [itemSteps, stepTags, List.flatMap_map, List.mem_flatMap, not_exists, not_and]
  intro part hpart hmem
  simp only [List.map_cons, List.map_nil, List.mem_singleton] at hmem
  exact h (tag_of_mem_itemParts hpart ▸ hmem.symm)

theorem regularParts_iff :
    RegularParts functions parts ↔ PartsHold (Plan.Regular functions) parts := by
  induction parts with
  | nil => simp [RegularParts, PartsHold]
  | cons part parts ih =>
    obtain ⟨tag, label, p⟩ := part
    simp only [RegularParts, ih, PartsHold, List.forall_mem_cons]

theorem regularSteps_iff :
    RegularSteps functions first steps ↔ StepsHold (Plan.Regular functions) first steps := by
  induction steps generalizing first with
  | nil => exact Iff.rfl
  | cons s steps ih =>
    cases s with
    | opening part => rw [regularSteps_opening, stepsHold_opening, ih]
    | together parts => rw [RegularSteps, stepsHold_together, regularParts_iff, ih]

theorem PartsHold.named (h : PartsHold Plan.Named parts) : NamedParts parts := by
  induction parts with
  | nil => trivial
  | cons part parts ih =>
    obtain ⟨tag, label, p⟩ := part
    obtain ⟨hpart, hparts⟩ := List.forall_mem_cons.mp h
    refine ⟨?_, ih hparts⟩
    rcases hpart with hp | ⟨-, rfl⟩
    · exact hp
    · trivial

theorem StepsHold.named (h : StepsHold Plan.Named first steps) : NamedSteps steps := by
  induction steps generalizing first with
  | nil => trivial
  | cons s steps ih =>
    cases s with
    | opening part =>
      obtain ⟨tag, label, p⟩ := part
      exact ⟨h.2.1, ih h.2.2⟩
    | together parts => exact ⟨h.1.named, ih h.2⟩

end Steps

/-! ## Traits -/

/-- A property of plans, with what it takes for a plan to have it. Its nodes of functions are those of
`functions`. -/
structure Plan.Trait where
  functions : List (Key × Go.Block)
  Holds : Plan → Prop
  absent : Holds .absent
  leaf {pos : Pos} {text : String} {kind : TokenKind} {form : LeafForm} :
    kind.isListed = true → form.Regular → form.Unnamed → Holds (.leaf pos text kind form)
  name {head : Head} {x : Ident} : head.Shows x → FieldsRegular head.fields →
    head.type ≠ .functionDeclaration → Holds (.node .shared head none [])
  node {scope : Scope} {head : Head} {cover : Option Head} {steps : List Step} :
    HeadsKnown functions scope head cover → StepsHold Holds true steps →
    Holds (.node scope head cover steps)
  clauseBody {steps : List Step} : endTag ∉ stepTags steps → StepsHold Holds false steps →
    Holds (.clauseBody steps)
  firstOf {p q : Plan} : Holds p → Holds q → Holds (.firstOf p q)

namespace Plan.Trait

/-- Regular plans. -/
def regular (functions : List (Key × Go.Block)) : Trait where
  functions
  Holds := Plan.Regular functions
  absent := trivial
  leaf hkind hform _ := ⟨hkind, hform⟩
  name _ hfields htype := ⟨⟨hfields, by simp, htype, by simp⟩, trivial⟩
  node hheads hsteps :=
    ⟨⟨hheads.fields, hheads.coverFields, hheads.fit⟩, regularSteps_iff.mpr hsteps⟩
  clauseBody htags hsteps := ⟨htags, regularSteps_iff.mpr hsteps⟩
  firstOf hp hq := ⟨hp, hq⟩

/-- Plans in which nodes of the types for names are leaves that show a name. -/
def named (functions : List (Key × Go.Block)) : Trait where
  functions
  Holds := Plan.Named
  absent := trivial
  leaf _ _ hform := hform
  name hx _ _ := ⟨.inr ⟨rfl, rfl, _, hx⟩, trivial⟩
  node hheads hsteps := ⟨.inl ⟨hheads.unnamed, hheads.coverUnnamed⟩, hsteps.named⟩
  clauseBody _ hsteps := hsteps.named
  firstOf hp hq := ⟨hp, hq⟩

variable (T : Trait) {key : Key} {type : NodeType} {fields : List (String × FieldPlan)}
  {steps : List Step} {children : Children Plan} {label : String}

@[simp] theorem holds_absent : T.Holds .absent := T.absent

@[simp] theorem holds_keyword {pos : Pos} {text : String} {n : Naming} :
    T.Holds (.leaf pos text .keyword (.token n)) := T.leaf rfl trivial trivial

@[simp] theorem holds_lexeme (pos : Option Pos) (word : Go.Lexeme) : T.Holds (lexeme pos word) := by
  cases pos with
  | none => exact T.absent
  | some p =>
    refine T.leaf ?_ trivial trivial
    cases word.isKeyword <;> rfl

@[simp] theorem holds_option {p : Option Plan} : T.Holds (option p) ↔ ∀ q ∈ p, T.Holds q := by
  cases p <;> simp [option]

/-- A node of a plain type in a shared scope. -/
theorem shared {head : Head} (hsteps : StepsHold T.Holds true steps)
    (hfields : FieldsRegular head.fields) (htype : head.type.isPlain = true) :
    T.Holds (.node .shared head none steps) :=
  T.node ⟨hfields, by simp, ⟨NodeType.ne_function_of_isPlain htype, by simp⟩,
    NodeType.nameField?_of_isPlain htype, by simp⟩ hsteps

theorem typed (hsteps : StepsHold T.Holds true steps) (hfields : FieldsRegular fields)
    (htype : type.isPlain = true) : T.Holds (typed key type fields steps) :=
  T.shared hsteps hfields htype

theorem group (hsteps : StepsHold T.Holds true steps) : T.Holds (group label steps) :=
  T.shared hsteps fieldsRegular_native rfl

theorem childSteps {kind : Go.Kind} {name : String} {c : Child Plan} (h : c.All T.Holds) :
    StepsHold T.Holds false (childSteps kind name c) := by
  unfold Plan.childSteps
  split
  · trivial
  · trivial
  · exact ⟨.of_forall (by simp), trivial⟩
  · rename_i x _
    cases x with
    | none => trivial
    | some p => exact ⟨.of_forall (by simpa using h p rfl), trivial⟩
  · refine ⟨.of_forall ?_, trivial⟩
    simpa using T.group (stepsHold_together.mpr
      ⟨.of_forall (forall_mem_itemParts.mpr h), stepsHold_nil⟩)
  · exact ⟨.of_forall (forall_mem_itemParts.mpr h), trivial⟩

theorem native (h : ∀ c ∈ children, c.All T.Holds) : T.Holds (native key children) := by
  refine T.shared (.mono ?_) fieldsRegular_native rfl
  induction key.kind.fields generalizing children with
  | nil => trivial
  | cons name names ih =>
    cases children with
    | nil => trivial
    | cons c children =>
      obtain ⟨hc, hchildren⟩ := List.forall_mem_cons.mp h
      rw [List.zip_cons_cons, List.flatMap_cons, stepsHold_append]
      exact ⟨T.childSteps hc, ih hchildren⟩

theorem orNative (hsteps : StepsHold T.Holds true steps) (hfields : FieldsRegular fields)
    (htype : type.isPlain = true) (h : ∀ c ∈ children, c.All T.Holds) :
    T.Holds (orNative key type fields steps children) :=
  T.firstOf (T.typed hsteps hfields htype) (T.native h)

theorem orNative_nil (hsteps : StepsHold T.Holds true steps) (hfields : FieldsRegular fields)
    (htype : type.isPlain = true) : T.Holds (Plan.orNative key type fields steps []) :=
  T.orNative hsteps hfields htype (by simp)

end Plan.Trait

end LosslessGo
