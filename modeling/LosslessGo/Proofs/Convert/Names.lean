import LosslessGo.Proofs.Convert.Coverage
import LosslessGo.Proofs.Draft.Takes
import LosslessGo.Proofs.Plan.OfSyntax

/-!
# Nodes for names show the source

The node of an identifier, or of a literal that is a name, is a leaf over as many bytes as the name in
its field has. Its text is what the source shows there (`Node.IsName`). Text and name are not compared,
in strict mode or not.

* `Plan.build_named`: carrying out a plan adds no other nodes of these types.
* `convertFile_names`: text and field agree just where the source shows the name.
* `convertFile_misnamed`: a file in strict mode where they do not.
-/

namespace LosslessGo

open Go (Ident Key)

/-- The node is one for the name `x`. -/
structure Node.IsName (n : Node) (source : String) (x : Ident) : Prop where
  children_eq : n.children = []
  offset_eq : n.offset = x.start.toNat
  stop_eq : n.stop = x.stop.toNat
  token_eq : ∃ range text, n.token = some ⟨text, range, .other⟩ ∧
    Text.slice? source x.start.toNat x.stop.toNat = some text
  literal_iff : n.type = .literal ↔ x.IsConstant
  name_eq : ∀ field, n.type.nameField? = some field → n.strField field = some x.name

/-- The node is one for a name, where its type is one of names. -/
def Node.Named (source : String) (n : Node) : Prop :=
  ∀ field, n.type.nameField? = some field → ∃ x, n.IsName source x

/-- Nodes of the types for names are leaves that show the source. -/
def Draft.Named (source : String) (d : Draft) : Prop := ∀ i, (d.tree.node i).Named source

variable {set : Setting} {source : String} {d d' : Draft} {n : Node}

theorem Node.named_of_type (h : n.type.nameField? = none) : n.Named source := by
  intro field hfield
  rw [h] at hfield
  cases hfield

/-- The number of a node has no part in its name. -/
theorem Node.Named.number (h : n.Named source) (v : FieldValue) :
    Node.Named source { n with fields := n.fields.insert flowIdName v } := by
  intro field hfield
  obtain ⟨x, hx⟩ := h field hfield
  refine ⟨x, hx.children_eq, hx.offset_eq, hx.stop_eq, hx.token_eq, hx.literal_iff, ?_⟩
  intro field hfield
  have hne : field ≠ flowIdName := by
    rintro rfl
    revert hfield
    dsimp only
    cases n.type <;> decide
  have hname := hx.name_eq field hfield
  simpa [strField, field?, Fields.get?_insert, hne] using hname

namespace Draft.Named

theorem of_size_le (hsize : ∀ i < d.tree.size, (d.tree.node i).Named source) : d.Named source := by
  intro i
  by_cases hi : i < d.tree.size
  · exact hsize i hi
  · have hdefault : d.tree.node i = default := by
      simp only [Tree.node, Array.getD_eq_getD_getElem?]
      rw [Array.getElem?_eq_none (Nat.le_of_not_lt hi)]
      rfl
    rw [hdefault]
    exact Node.named_of_type rfl

theorem empty : Draft.empty.Named source := of_size_le fun _ hi => absurd hi (Nat.not_lt_zero _)

/-- One more node. -/
theorem push (h : d.Named source) (htree : d'.tree = d.tree.push n) (hn : n.Named source) :
    d'.Named source := by
  refine of_size_le fun i hi => ?_
  rw [htree] at hi ⊢
  by_cases hlt : i < d.tree.size
  · rw [Tree.node_push_of_lt hlt]
    exact h i
  · obtain rfl : i = d.tree.size := by
      rw [Tree.size_push] at hi
      omega
    rw [Tree.node_push_size]
    exact hn

theorem of_tree_eq (h : d.Named source) (htree : d'.tree = d.tree) : d'.Named source := by
  rw [Draft.Named, htree]
  exact h

/-- One more node with a number. -/
theorem stamp (h : d.Named source) (hn : n.Named source) (key : Key) :
    ((d.add n).stamp d.tree.size key).Named source :=
  h.push (Tree.modify_push _ _ _) (hn.number _)

/-- Tokens between children are no nodes for names. -/
theorem takes {f f' : Filling} {xs : List NodeId} (h : f.draft.Named source)
    (ht : f.Takes xs f') : f'.draft.Named source := by
  refine of_size_le fun i hi => ?_
  by_cases hlt : i < f.draft.tree.size
  · rw [ht.grows.tree.node_eq i hlt]
    exact h i
  · have htext := ht.text i (Draft.mem_added.mpr ⟨Nat.le_of_not_lt hlt, hi⟩)
    exact Node.named_of_type (by rw [htext.type_eq]; rfl)

end Draft.Named

/-! ## Steps that make nodes -/

namespace Build

theorem leaf_named {offset stop : Nat} {kind : TokenKind} {type : NodeType} {fields : Fields}
    (h : d.Named source) (htype : type.nameField? = none) :
    Yields (leaf set offset stop kind type fields) d fun _ d' => d'.Named source := by
  refine leaf_yields.mono ?_
  rintro x d' (⟨rfl, rfl, -⟩ | ⟨n, hn, rfl, rfl⟩)
  · exact h
  · exact h.push rfl (Node.named_of_type (hn.type_eq ▸ htype))

theorem expectedLeaf_named {offset : Nat} {expected : String} {kind : TokenKind} {type : NodeType}
    {fields : Fields} (h : d.Named source) (htype : type.nameField? = none) :
    Yields (expectedLeaf set offset expected kind type fields) d fun _ d' => d'.Named source :=
  .bind (ofExcept_yields fun stop _ => by
    cases stop with
    | none => exact .pure h
    | some stop => exact leaf_named h htype)

theorem comments_named {cs : List Go.Comment} (h : d.Named source) :
    Yields (comments set cs) d fun _ d' => d'.Named source := by
  refine comments_yields_of ?_ h
  intro d n offset stop hd hn
  exact (hd.push rfl (Node.named_of_type (hn.type_eq ▸ rfl))).of_tree_eq rfl

theorem node_named {origin : Option Key} {type : NodeType} {fields : Fields}
    {children : List NodeId} (h : d.Named source) (htype : type.nameField? = none) :
    Yields (node set origin type fields children) d fun _ d' => d'.Named source := by
  refine node_yields.mono fun x d' hmade => ?_
  cases hmade with
  | none => exact h
  | leaf n key _ _ hn => exact h.stamp (Node.named_of_type (hn.type_eq ▸ htype)) key
  | inner first last =>
    obtain ⟨fields', htree⟩ := d.number_tree (innerNode d.tree first last children type fields) origin
    exact h.push htree (Node.named_of_type htype)

/-- A leaf is made for a name. -/
theorem head_shows {o : Outcome} {h : Head} {x : Ident} (hd : d.Named set.source)
    (hx : h.Shows x) : Yields (head set o h []) d fun _ d' => d'.Named set.source := by
  refine .bind (.get (node_yields.mono fun y d' hmade => ?_))
  rw [hx.origin_eq] at hmade
  cases hmade with
  | none => exact hd
  | inner first last hnil => cases hnil
  | leaf n key _ hkey hn =>
    cases hkey
    refine hd.stamp (fun field hfield => ⟨x, hn.children_eq, hn.offset_eq, hn.stop_eq, hn.token_eq,
      hn.type_eq ▸ hx.literal_iff, fun field hfield => ?_⟩) x.key
    rw [hn.type_eq] at hfield
    rw [Node.strField, Node.field?, hn.fields_eq, hx.name_eq field hfield]

theorem enterScope_named {scope : Scope} (h : d.Named source) :
    Yields (enterScope scope) d fun _ d' => d'.Named source := by
  cases scope with
  | shared => exact .pure h
  | own body =>
    rintro _ _ ⟨⟩
    exact h.of_tree_eq rfl

theorem leaveScope_named {scope : Scope} (h : d.Named source) :
    Yields (leaveScope scope) d fun _ d' => d'.Named source := by
  cases scope with
  | shared => exact .pure h
  | own body =>
    refine .bind ?_
    rintro _ _ ⟨⟩
    exact .pure (h.of_tree_eq rfl)

theorem clauseBlock_named {children : List NodeId} (h : d.Named source) :
    Yields (clauseBlock set children) d fun _ d' => d'.Named source := by
  refine .bind (.get ?_)
  simp only
  split
  · exact .pure h
  · exact node_named h rfl

end Build

/-! ## Plans -/

mutual

/-- A plan adds no nodes of the types for names but leaves that show the source. -/
theorem Plan.build_named (label : String) : (p : Plan) → p.Named → ∀ {d : Draft},
    d.Named set.source → Yields (p.build set label) d fun _ d' => d'.Named set.source
  | .absent, _, _, h => .pure h
  | .leaf pos text kind (.token n), _, _, h => Build.expectedLeaf_named h rfl
  | .leaf pos text kind (.typed type fields), hp, _, h => Build.expectedLeaf_named h hp
  | .endMark, _, _, h => Build.leaf_named h rfl
  | .node scope head cover steps, ⟨hhead, hsteps⟩, d, h => by
    rw [Plan.build]
    refine .bind ((Build.enterScope_named h).mono fun _ _ h₁ => ?_)
    rcases hhead with ⟨hhead, hcover⟩ | ⟨rfl, rfl, x, hx⟩
    · refine .bind (Fill.gather_yields ((runSteps_named steps [] hsteps h₁).mono
        fun made f₂ h₂ => ?_))
      refine .bind ((Build.leaveScope_named h₂).mono fun graph _ h₃ => ?_)
      refine .bind (Yields.mono (.bind (.get (Build.node_named h₃ hhead))) fun core _ h₄ => ?_)
      cases cover with
      | none => exact .pure h₄
      | some outer => exact .bind (.get (Build.node_named h₄ (hcover outer rfl)))
    · -- A name has no children.
      refine .bind (Fill.gather_yields (.pure ?_))
      refine .bind ((Build.leaveScope_named h₁).mono fun graph _ h₃ => ?_)
      exact .bind ((Build.head_shows h₃ hx).mono fun _ _ h₄ => .pure h₄)
  | .clauseBody steps, hp, d, h => by
    rw [Plan.build]
    exact .bind (Fill.gather_yields ((runSteps_named steps [] hp h).mono
      fun _ _ h₁ => Build.clauseBlock_named h₁))
  | .firstOf first second, hp, d, h => by
    rw [Plan.build]
    refine .bind ((Plan.build_named label first hp.1 h).mono fun x _ h₁ => ?_)
    cases x with
    | some i => exact .pure h₁
    | none => exact Plan.build_named label second hp.2 h₁

theorem buildParts_named : (ps : List Part) → NamedParts ps → ∀ {d : Draft},
    d.Named set.source → Yields (buildParts set ps) d fun _ d' => d'.Named set.source
  | [], _, _, h => .pure h
  | ⟨tag, label, plan⟩ :: parts, hp, d, h => by
    rw [buildParts]
    refine .bind ((Plan.build_named label plan hp.1 h).mono fun _ _ h₁ => ?_)
    exact .bind ((buildParts_named parts hp.2 h₁).mono fun _ _ h₂ => .pure h₂)

theorem runSteps_named : (steps : List Step) → (made : Made) → NamedSteps steps →
    ∀ {f : Filling}, f.draft.Named set.source →
    Yields (runSteps set steps made) f fun _ f' => f'.draft.Named set.source
  | [], _, _, _, h => .pure h
  | .opening ⟨tag, label, plan⟩ :: steps, made, hp, f, h => by
    rw [runSteps]
    refine .bind ((Fill.build_yields (Plan.build_named label plan hp.1 h)).mono ?_)
    rintro x ⟨d₁, cs⟩ ⟨rfl, h₁⟩
    cases x with
    | none => exact runSteps_named steps _ hp.2 h₁
    | some i =>
      exact .bind (Fill.appendFrom_takes.mono fun _ _ ht =>
        runSteps_named steps _ hp.2 (Draft.Named.takes h₁ ht))
  | .together parts :: steps, made, hp, f, h => by
    rw [runSteps]
    refine .bind ((Fill.build_yields (buildParts_named parts hp.1 h)).mono ?_)
    rintro new ⟨d₁, cs⟩ ⟨rfl, h₁⟩
    exact .bind (Fill.appendAll_takes.mono fun _ _ ht =>
      runSteps_named steps _ hp.2 (Draft.Named.takes h₁ ht))

end

/-! ## Converted files -/

theorem buildFile_named {facts : Facts} {file : Go.File} :
    Yields (buildFile set facts file) .empty fun _ d => d.Named set.source := by
  have hempty : Draft.empty.Named set.source := .empty
  refine .bind ((Build.comments_named hempty).mono fun _ _ h₁ => ?_)
  refine .bind ((Plan.build_named "" _ (Plan.ofFile_named file) h₁).mono fun _ _ h₂ => ?_)
  refine .bind (checkRoot_yields.mono ?_)
  rintro - _ rfl
  exact .pure h₂

/-- In either mode, a node for a name shows the source at the place of the name. Its text is the name
in its field just where the source shows the name there. -/
theorem convertFile_names {file : Go.File} {source : SourceFile} {symbols : SymbolTable}
    {options : ConvertOptions} {r : Converted}
    (h : convertFile file source symbols options = .ok r) {i : NodeId}
    (htype : (r.tree.node i).type = .identifier ∨ (r.tree.node i).type = .literal) :
    ∃ x, (r.tree.node i).IsName source.text x ∧
      ((r.tree.node i).token.map (·.text) = some x.name ↔
        Text.slice? source.text x.start.toNat x.stop.toNat = some x.name) := by
  have hnamed : (r.tree.node i).Named source.text := by
    unfold convertFile at h
    split at h
    · rename_i root d hd
      cases h
      exact buildFile_named root d hd i
    · cases h
  obtain ⟨field, hfield⟩ : ∃ field, (r.tree.node i).type.nameField? = some field := by
    rcases htype with htype | htype <;> exact ⟨_, by rw [htype]; rfl⟩
  obtain ⟨x, hx⟩ := hnamed field hfield
  obtain ⟨range, text, htoken, htext⟩ := hx.token_eq
  exact ⟨x, hx, by rw [htoken, htext]; rfl⟩

theorem convertFile_names_commentedFile :
    ∃ r i, convertFile commentedFile commentedSource .empty ⟨true, false⟩ = .ok r ∧
      (r.tree.node i).type = .identifier ∧
      ∃ x, (r.tree.node i).IsName commentedSource.text x ∧
        ((r.tree.node i).token.map (·.text) = some x.name ↔
          Text.slice? commentedSource.text x.start.toNat x.stop.toNat = some x.name) := by
  have hrun : (convertFile commentedFile commentedSource .empty ⟨true, false⟩).toOption.any
      (fun r => (r.tree.node 2).type = .identifier) = true := by
    decide +kernel
  cases h : convertFile commentedFile commentedSource .empty ⟨true, false⟩ with
  | error e =>
    rw [h] at hrun
    cases hrun
  | ok r =>
    rw [h] at hrun
    have htype : (r.tree.node 2).type = .identifier := by
      simpa [Except.toOption] using hrun
    exact ⟨r, 2, rfl, htype, convertFile_names h (.inl htype)⟩

/-- A file whose package has another name than its source shows. -/
def misnamedFile : Go.File := ⟨0, ⟨8, "q", none⟩, [], []⟩

/-- The source of `misnamedFile`. -/
def misnamedSource : SourceFile := .ofText "m.go" "package p\n"

/-- In strict mode, an identifier may be converted whose text is not its name. -/
theorem convertFile_misnamed :
    ∃ r root i, convertFile misnamedFile misnamedSource .empty ⟨true, false⟩ = .ok r ∧
      r.root = some root ∧ r.tree.Below root i ∧ (r.tree.node i).type = .identifier ∧
      (r.tree.node i).strField "name" = some "q" ∧
      (r.tree.node i).token.map (·.text) = some "p" := by
  have hrun : (convertFile misnamedFile misnamedSource .empty ⟨true, false⟩).toOption.any (fun r =>
      r.root = some 4 ∧ r.tree.children 4 = [2, 3] ∧ r.tree.children 2 = [0, 1] ∧
        (r.tree.node 1).type = .identifier ∧ (r.tree.node 1).strField "name" = some "q" ∧
        (r.tree.node 1).token.map (·.text) = some "p") = true := by
    decide +kernel
  cases h : convertFile misnamedFile misnamedSource .empty ⟨true, false⟩ with
  | error e =>
    rw [h] at hrun
    cases hrun
  | ok r =>
    rw [h] at hrun
    simp only [Except.toOption, Option.any_some, decide_eq_true_eq] at hrun
    obtain ⟨hroot, h₄, h₂, htype, hname, htext⟩ := hrun
    have hbelow : r.tree.Below 4 1 :=
      ((Tree.Below.refl r.tree 4).child (by simp [h₄] : 2 ∈ r.tree.children 4)).child (by simp [h₂])
    exact ⟨r, 4, 1, rfl, hroot, hbelow, htype, hname, htext⟩

end LosslessGo
