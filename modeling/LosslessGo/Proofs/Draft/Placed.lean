import LosslessGo.Draft.Gap
import LosslessGo.Proofs.Draft.Yields
import LosslessGo.Proofs.Tree.Grows

/-!
# Every node of a draft has its place in the source

A node lies between characters of the source, and its range is that of its offsets. A leaf holds the
text of its span, which is empty at an end mark only (`Node.Placed`). Steps on a draft keep this of all
nodes, those that fail included, for what they made before stays.

* `Ends`: what holds after a step, in success or failure.
* `Draft.LeafClosed`: what leaves do not change holds after every step that adds leaves only.
* `placed_of_leafNode?`, `placed_innerNode`: leaves, and nodes over nodes that have their places.
* `Build.leaf_ends`, `Build.node_ends`, `Fill.gap_ends`, `Fill.appendAll_ends`: the steps.
-/

namespace LosslessGo

open Go (Key)

variable {ε σ α β : Type}

/-! ## What holds after a step -/

/-- The state in which a step ends, in success or failure. -/
def stateAfter (x : EStateM ε σ α) (s : σ) : σ :=
  match x s with
  | .ok _ s' => s'
  | .error _ s' => s'

/-- However step `x` ends from state `s`, the state then satisfies `P`. -/
def Ends (x : EStateM ε σ α) (s : σ) (P : σ → Prop) : Prop := P (stateAfter x s)

namespace Ends

variable {x : EStateM ε σ α} {f : α → EStateM ε σ β} {s : σ} {P : σ → Prop}

theorem of_ok {a : α} {s' : σ} (hx : x s = .ok a s') (h : P s') : Ends x s P := by
  rw [Ends, stateAfter, hx]
  exact h

theorem pure {a : α} (h : P s) : Ends (Pure.pure a : EStateM ε σ α) s P := h

theorem throw {e : ε} (h : P s) : Ends (throw e : EStateM ε σ α) s P := h

theorem mono {R : σ → Prop} (h : Ends x s P) (hP : ∀ s', P s' → R s') : Ends x s R := hP _ h

theorem yields (h : Ends x s P) : Yields x s fun _ s' => P s' := by
  intro a s' hx
  rw [Ends, stateAfter, hx] at h
  exact h

/-- The second step only runs where the first one succeeds. -/
theorem bind (h : Ends x s P) (hf : Yields x s fun a s' => Ends (f a) s' P) :
    Ends (x >>= f) s P := by
  unfold Ends stateAfter at h ⊢
  simp only [Bind.bind, EStateM.bind]
  cases hx : x s with
  | ok a s' => exact hf a s' hx
  | error e s' =>
    rw [hx] at h
    exact h

/-- The first step succeeds. -/
theorem of_bind {a : α} {s' : σ} (hx : x s = .ok a s') (h : Ends (f a) s' P) : Ends (x >>= f) s P := by
  simp only [Ends, stateAfter, Bind.bind, EStateM.bind, hx]
  exact h

/-- Steps that keep `P` keep it one after the other. -/
theorem seq (h : Ends x s P) (hf : ∀ a s', P s' → Ends (f a) s' P) : Ends (x >>= f) s P :=
  h.bind (h.yields.mono hf)

theorem map {g : α → β} (h : Ends x s P) : Ends (g <$> x) s P := by
  unfold Ends stateAfter at h ⊢
  simp only [Functor.map, EStateM.map]
  cases hx : x s <;> rw [hx] at h <;> exact h

/-- A step may look at the state. -/
theorem get {f : σ → EStateM ε σ β} (h : Ends (f s) s P) : Ends (MonadState.get >>= f) s P := h

end Ends

/-! ## Steps that add leaves only -/

/-- Adding a leaf of the source keeps `P`. -/
def Draft.LeafClosed (set : Setting) (P : Draft → Prop) : Prop :=
  ∀ {d : Draft} {n : Node} {offset stop : Nat} {kind : TokenKind} {type : NodeType} {fields : Fields},
    leafNode? set offset stop kind type fields = .ok (some n) → P d → P (d.add n)

namespace Build

theorem ofExcept_ends {P : Draft → Prop} {d : Draft} {x : Except ConvertError α} (h : P d) :
    Ends (ofExcept x) d P := by
  cases x <;> exact h

end Build

namespace Fill

theorem build_ends {P : Draft → Prop} {f : Filling} {x : Build α} (h : Ends x f.draft P) :
    Ends (build x) f fun f' => P f'.draft := by
  unfold Ends stateAfter at h ⊢
  simp only [build]
  cases hx : x f.draft <;> rw [hx] at h <;> exact h

end Fill

namespace Draft.LeafClosed

variable {set : Setting} {P : Draft → Prop} {d : Draft} {f : Filling} {offset stop : Nat}
  {kind : TokenKind} {type : NodeType} {fields : Fields}

theorem leaf (hP : LeafClosed set P) (h : P d) :
    Ends (Build.leaf set offset stop kind type fields) d P := by
  refine .bind (Build.ofExcept_ends h) (Build.ofExcept_yields fun x hx => ?_)
  cases x with
  | none => exact .pure h
  | some n => exact .map (.of_ok rfl (hP hx h))

theorem expectedLeaf (hP : LeafClosed set P) {expected : String} (h : P d) :
    Ends (Build.expectedLeaf set offset expected kind type fields) d P := by
  refine .seq (Build.ofExcept_ends h) fun x d' h' => ?_
  cases x with
  | none => exact .pure h'
  | some stop => exact hP.leaf h'

theorem lexeme (hP : LeafClosed set P) {pos : Option Go.Pos} {word : Go.Lexeme} {label : String}
    (h : P d) : Ends (Build.lexeme set pos word label) d P := by
  cases pos with
  | none => exact .pure h
  | some p => exact hP.expectedLeaf h

/-- The list of comments has no part in `P`. -/
theorem comments (hP : LeafClosed set P)
    (hlist : ∀ {d : Draft} {ids : Array NodeId}, P d → P { d with comments := ids })
    (cs : List Go.Comment) (h : P d) : Ends (Build.comments set cs) d P := by
  induction cs generalizing d with
  | nil => exact .pure h
  | cons c cs ih =>
    refine .seq (hP.expectedLeaf h) fun x d' h' => ?_
    cases x with
    | none => exact ih h'
    | some i => exact .seq (.of_ok rfl (hlist h')) fun _ _ h'' => ih h''

theorem pushSome {x : Option NodeId} (h : P f.draft) : Ends (Fill.pushSome x) f fun f' => P f'.draft := by
  cases x <;> exact h

theorem pieces (hP : LeafClosed set P) (ps : List GapPiece) (h : P f.draft) :
    Ends (Fill.pieces set ps) f fun f' => P f'.draft := by
  induction ps generalizing f with
  | nil => exact .pure h
  | cons p ps ih =>
    cases p with
    | token a m =>
      exact .seq (Fill.build_ends (hP.leaf h)) fun _ _ h₁ => .seq (pushSome h₁) fun _ _ h₂ => ih h₂
    | rest a b =>
      simp only [Fill.pieces]
      split
      · exact .throw h
      · exact .seq (Fill.build_ends (hP.leaf h)) fun _ _ h₁ => .seq (pushSome h₁) fun _ _ h₂ => ih h₂

theorem missing (hP : LeafClosed set P) (h : P f.draft) :
    Ends (Fill.missing set offset stop) f fun f' => P f'.draft := by
  unfold Fill.missing
  split
  · split
    · exact .throw h
    · exact .pure h
  · exact hP.pieces _ h

end Draft.LeafClosed

/-! ## Places -/

/-- The node lies between characters of the source, and its range is that of its offsets. A leaf holds
the text of its span, and is empty only where it is an end mark. -/
structure Node.Placed (set : Setting) (n : Node) : Prop where
  offset_le : n.offset ≤ set.size
  stop_le : n.stop ≤ set.size
  offset_valid : String.Pos.Raw.IsValid set.source ⟨n.offset⟩
  stop_valid : String.Pos.Raw.IsValid set.source ⟨n.stop⟩
  start_eq : set.file.lines.position? n.offset = some (n.range.startLine, n.range.startColumn)
  end_eq : set.file.lines.position? n.stop = some (n.range.endLine, n.range.endColumn)
  leaf : ∀ token, n.token = some token → n.offset ≤ n.stop ∧
    Text.slice? set.source n.offset n.stop = some token.text ∧ token.range = n.range ∧
    (n.offset = n.stop → token.kind = .endOfFile)

variable {set : Setting} {n : Node} {t : Tree} {d d' : Draft} {f : Filling} {offset stop : Nat}
  {kind : TokenKind} {type : NodeType} {fields : Fields} {origin : Option Key}
  {children : List NodeId} {i : NodeId}

/-- Fields have no part in the place of a node. -/
theorem Node.Placed.withFields (h : n.Placed set) (fields : Fields) :
    Node.Placed set { n with fields } :=
  ⟨h.offset_le, h.stop_le, h.offset_valid, h.stop_valid, h.start_eq, h.end_eq, h.leaf⟩

theorem SourceFile.of_range {file : SourceFile} {range : TextRange}
    (h : file.range offset stop = .ok range) :
    file.lines.position? offset = some (range.startLine, range.startColumn) ∧
      file.lines.position? stop = some (range.endLine, range.endColumn) := by
  unfold SourceFile.range SourceFile.position at h
  cases hstart : file.lines.position? offset with
  | none => simp [hstart, bind, Except.bind] at h
  | some p =>
    cases hstop : file.lines.position? stop with
    | none => simp [hstart, hstop, bind, Except.bind] at h
    | some q =>
      simp only [hstart, hstop, bind, Except.bind, pure, Except.pure, Except.ok.injEq] at h
      subst h
      exact ⟨rfl, rfl⟩

/-- A leaf that can be made has its place. -/
theorem placed_of_leafNode? (h : leafNode? set offset stop kind type fields = .ok (some n)) :
    n.Placed set := by
  unfold leafNode? at h
  split at h
  · cases h
  split at h
  · split at h <;> cases h
  split at h
  · cases h
  rename_i hin hempty _ text htext
  cases hrange : set.file.range offset stop with
  | error e =>
    rw [hrange] at h
    cases h
  | ok range =>
    rw [hrange] at h
    cases h
    obtain ⟨hstart, hend⟩ := SourceFile.of_range hrange
    have hvalid : offset ≤ stop ∧ String.Pos.Raw.IsValid set.source ⟨offset⟩ ∧
        String.Pos.Raw.IsValid set.source ⟨stop⟩ := by
      unfold Text.slice? at htext
      split at htext
      · assumption
      · cases htext
    have hstop : stop ≤ set.size := by omega
    refine ⟨Nat.le_trans hvalid.1 hstop, hstop, hvalid.2.1, hvalid.2.2, hstart, hend, ?_⟩
    rintro token ⟨⟩
    exact ⟨hvalid.1, htext, rfl, fun heq => Decidable.byContradiction fun hkind => hempty ⟨heq, hkind⟩⟩

/-- A node from one node that has its place to another has its own. -/
theorem placed_innerNode {first last : NodeId} (hfirst : (t.node first).Placed set)
    (hlast : (t.node last).Placed set) :
    (innerNode t first last children type fields).Placed set where
  offset_le := hfirst.offset_le
  stop_le := hlast.stop_le
  offset_valid := hfirst.offset_valid
  stop_valid := hlast.stop_valid
  start_eq := hfirst.start_eq
  end_eq := hlast.end_eq
  leaf := by rintro token ⟨⟩

/-- All nodes have their places. -/
def Draft.Placed (set : Setting) (d : Draft) : Prop := ∀ i < d.tree.size, (d.tree.node i).Placed set

namespace Draft.Placed

theorem empty : Draft.empty.Placed set := fun _ hi => absurd hi (Nat.not_lt_zero _)

theorem of_tree_eq (h : d.Placed set) (htree : d'.tree = d.tree) : d'.Placed set := by
  rw [Draft.Placed, htree]
  exact h

theorem add (h : d.Placed set) (hn : n.Placed set) : (d.add n).Placed set := by
  intro i hi
  have hsize : (d.add n).tree.size = d.tree.size + 1 := Tree.size_push
  by_cases hlt : i < d.tree.size
  · have hnode : (d.add n).tree.node i = d.tree.node i := Tree.node_push_of_lt hlt
    rw [hnode]
    exact h i hlt
  · obtain rfl : i = d.tree.size := by omega
    have hnode : (d.add n).tree.node d.tree.size = n := Tree.node_push_size
    rw [hnode]
    exact hn

theorem stamp (h : d.Placed set) (i : NodeId) (key : Key) : (d.stamp i key).Placed set := by
  intro j hj
  have hj' : j < d.tree.size := by simpa [Draft.stamp] using hj
  by_cases hij : i = j
  · subst hij
    have hnode : ∃ fields, (d.stamp i key).tree.node i = { d.tree.node i with fields } :=
      ⟨_, Tree.node_modify_self hj'⟩
    obtain ⟨fields, hnode⟩ := hnode
    rw [hnode]
    exact (h i hj').withFields fields
  · have hnode : (d.stamp i key).tree.node j = d.tree.node j := Tree.node_modify_of_ne hij
    rw [hnode]
    exact h j hj'

theorem number (h : d.Placed set) (i : NodeId) (origin : Option Key) :
    (d.number i origin).Placed set := by
  cases origin with
  | none => exact h
  | some key => exact h.stamp i key

end Draft.Placed

/-! ## Steps on a draft -/

theorem Draft.Placed.leafClosed : Draft.LeafClosed set (Draft.Placed set) :=
  fun hn h => h.add (placed_of_leafNode? hn)

namespace Build

theorem leaf_ends (h : d.Placed set) :
    Ends (leaf set offset stop kind type fields) d (Draft.Placed set) :=
  Draft.Placed.leafClosed.leaf h

theorem expectedLeaf_ends {expected : String} (h : d.Placed set) :
    Ends (expectedLeaf set offset expected kind type fields) d (Draft.Placed set) :=
  Draft.Placed.leafClosed.expectedLeaf h

theorem lexeme_ends {pos : Option Go.Pos} {word : Go.Lexeme} {label : String} (h : d.Placed set) :
    Ends (lexeme set pos word label) d (Draft.Placed set) :=
  Draft.Placed.leafClosed.lexeme h

/-- A node copies its ends from its children, which must be there. -/
theorem node_ends (h : d.Placed set) (hchildren : ∀ c ∈ children, c < d.tree.size) :
    Ends (node set origin type fields children) d (Draft.Placed set) := by
  cases children with
  | nil =>
    cases origin with
    | none => exact .pure h
    | some key =>
      refine .seq (leaf_ends h) fun x d' h' => ?_
      cases x with
      | none => exact .pure h'
      | some i => exact .seq (.of_ok rfl (h'.stamp i key)) fun _ _ h'' => .pure h''
  | cons first rest =>
    have hfirst := h first (hchildren first List.mem_cons_self)
    have hlast : (d.tree.node ((first :: rest).getLastD first)).Placed set := by
      rw [List.getLastD_cons]
      exact h _ (hchildren _ List.getLastD_mem_cons)
    refine .get (.seq (.of_ok rfl (h.add (placed_innerNode hfirst hlast))) fun i d' h' => ?_)
    cases origin with
    | none => exact .pure h'
    | some key => exact .seq (.of_ok rfl (h'.stamp i key)) fun _ _ h'' => .pure h''

theorem comments_ends (cs : List Go.Comment) (h : d.Placed set) :
    Ends (comments set cs) d (Draft.Placed set) :=
  Draft.Placed.leafClosed.comments (fun h' => h'.of_tree_eq rfl) cs h

end Build

/-! ## Steps on a draft and a list of children -/

namespace Fill

/-- All nodes of the draft have their places. -/
def Placed (set : Setting) (f : Filling) : Prop := f.draft.Placed set

theorem push_ends (h : Placed set f) : Ends (push i) f (Placed set) := h

theorem advance_ends (h : Placed set f) : Ends advance f (Placed set) := h.of_tree_eq rfl

theorem rewind_ends (h : Placed set f) : Ends (rewind offset) f (Placed set) := h.of_tree_eq rfl

theorem missing_ends (h : Placed set f) : Ends (missing set offset stop) f (Placed set) :=
  Draft.Placed.leafClosed.missing h

theorem placeComments_ends (cs : List NodeId) (h : Placed set f) :
    Ends (placeComments set stop cs offset) f (Placed set) := by
  induction cs generalizing f offset with
  | nil => exact .pure h
  | cons c cs ih =>
    refine .get ?_
    simp only
    split
    · split
      · exact .pure h
      · exact .seq (missing_ends h) fun _ _ h₁ => .seq (push_ends h₁) fun _ _ h₂ =>
          .seq (advance_ends h₂) fun _ _ h₃ => ih h₃
    · exact .seq (advance_ends h) fun _ _ h₁ => ih h₁

theorem gap_ends (h : Placed set f) : Ends (gap set offset stop) f (Placed set) :=
  .seq (rewind_ends h) fun _ _ h₁ => .get (.seq (placeComments_ends _ h₁) fun _ _ h₂ => missing_ends h₂)

theorem appendFrom_ends (h : Placed set f) : Ends (appendFrom set offset i) f (Placed set) :=
  .get (.seq (gap_ends h) fun _ _ h₁ => push_ends h₁)

theorem append_ends {x : Option NodeId} (h : Placed set f) : Ends (append set x) f (Placed set) := by
  cases x with
  | none => exact .pure h
  | some i =>
    refine .get ?_
    split
    · exact push_ends h
    · simp only
      split
      · split
        · exact .throw h
        · exact push_ends h
      · exact appendFrom_ends h

theorem appendAll_ends (xs : List (Option NodeId)) (h : Placed set f) :
    Ends (appendAll set xs) f (Placed set) := by
  induction xs generalizing f with
  | nil => exact .pure h
  | cons x xs ih => exact .seq (append_ends h) fun _ _ h₁ => ih h₁

end Fill

end LosslessGo
