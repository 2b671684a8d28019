import LosslessGo.Draft.Leaf

/-!
# What a step yields

A step on a draft may fail. `Yields x s Q` says what holds where it does not: the result of `x` from
state `s`, and the state after it, satisfy `Q`. A step is followed through its parts:

* `Yields.bind` and `Yields.mono` join what is known of the parts;
* `leaf_yields`, `expectedLeaf_yields` and `node_yields` say what the steps that make nodes add;
* `comments_yields_of` follows the leaves of comments by what the leaf of one comment keeps.
-/

namespace LosslessGo

open Go (Key Pos)

variable {ε σ α β : Type}

/-- Where step `x` succeeds from state `s`, its result and the state after it satisfy `Q`. -/
def Yields (x : EStateM ε σ α) (s : σ) (Q : α → σ → Prop) : Prop :=
  ∀ a s', x s = .ok a s' → Q a s'

namespace Yields

variable {x : EStateM ε σ α} {f : α → EStateM ε σ β} {s : σ} {Q R : α → σ → Prop}

theorem mono (h : Yields x s Q) (hQ : ∀ a s', Q a s' → R a s') : Yields x s R :=
  fun a s' hx => hQ a s' (h a s' hx)

theorem pure {a : α} (h : Q a s) : Yields (Pure.pure a : EStateM ε σ α) s Q := by
  rintro _ _ ⟨⟩
  exact h

theorem get {Q : σ → σ → Prop} (h : Q s s) : Yields (MonadState.get : EStateM ε σ σ) s Q := by
  rintro _ _ ⟨⟩
  exact h

theorem throw {e : ε} : Yields (throw e : EStateM ε σ α) s Q := by
  rintro _ _ ⟨⟩

theorem bind {Q : β → σ → Prop} (h : Yields x s fun a s' => Yields (f a) s' Q) :
    Yields (x >>= f) s Q := by
  intro b s' hb
  simp only [Bind.bind, EStateM.bind] at hb
  split at hb
  · exact h _ _ ‹_› _ _ hb
  · cases hb

theorem map {g : α → β} {Q : β → σ → Prop} (h : Yields x s fun a s' => Q (g a) s') :
    Yields (g <$> x) s Q := by
  intro b s' hb
  simp only [Functor.map, EStateM.map] at hb
  split at hb
  · cases hb
    exact h _ _ ‹_›
  · cases hb

/-- What two analyses of one step find holds together. -/
theorem and (h : Yields x s Q) (h' : Yields x s R) : Yields x s fun a s' => Q a s' ∧ R a s' :=
  fun a s' hx => ⟨h a s' hx, h' a s' hx⟩

end Yields

namespace Build

variable {d : Draft}

theorem add_yields {n : Node} {Q : NodeId → Draft → Prop} (h : Q d.tree.size (d.add n)) :
    Yields (add n) d Q := by
  rintro _ _ ⟨⟩
  exact h

theorem stamp_yields {i : NodeId} {key : Key} {Q : Unit → Draft → Prop} (h : Q () (d.stamp i key)) :
    Yields (stamp i key) d Q := by
  rintro _ _ ⟨⟩
  exact h

theorem ofExcept_yields {α : Type} {x : Except ConvertError α} {Q : α → Draft → Prop}
    (h : ∀ a, x = .ok a → Q a d) : Yields (ofExcept x) d Q := by
  intro a d' hx
  unfold ofExcept at hx
  split at hx
  · cases hx
    exact h _ rfl
  · cases hx

end Build

/-! ## Leaves and nodes -/

/-- The leaf `n` over the text from `offset` to `stop`. -/
structure Node.IsLeafOver (n : Node) (set : Setting) (offset stop : Nat) (kind : TokenKind)
    (type : NodeType) (fields : Fields) : Prop where
  type_eq : n.type = type
  fields_eq : n.fields = fields
  offset_eq : n.offset = offset
  stop_eq : n.stop = stop
  children_eq : n.children = []
  token_eq : ∃ range text, n.token = some ⟨text, range, kind⟩ ∧
    Text.slice? set.source offset stop = some text
  offset_le : offset ≤ stop
  offset_lt : kind ≠ .endOfFile → offset < stop
  stop_le : stop ≤ set.size

theorem Node.IsLeafOver.isLeaf {n : Node} {set : Setting} {offset stop : Nat} {kind : TokenKind}
    {type : NodeType} {fields : Fields} (h : n.IsLeafOver set offset stop kind type fields) :
    n.isLeaf = true := by
  obtain ⟨range, text, e, -⟩ := h.token_eq
  simp [Node.isLeaf, e]

/-- A leaf that can be made stands over its span. -/
theorem isLeafOver_of_leafNode? {set : Setting} {offset stop : Nat} {kind : TokenKind}
    {type : NodeType} {fields : Fields} {n : Node}
    (h : leafNode? set offset stop kind type fields = .ok (some n)) :
    n.IsLeafOver set offset stop kind type fields := by
  unfold leafNode? at h
  split at h
  · cases h
  split at h
  · split at h <;> cases h
  split at h
  · cases h
  rename_i hin hempty _ text htext
  cases hr : set.file.range offset stop with
  | error e => rw [hr] at h; cases h
  | ok range =>
    rw [hr] at h
    cases h
    refine ⟨rfl, rfl, rfl, rfl, rfl, ⟨range, text, rfl, htext⟩, by omega, fun hk => ?_, by omega⟩
    have : offset ≠ stop := fun e => hempty ⟨e, hk⟩
    omega

/-- A leaf is left out only where its span is empty, and never in strict mode. -/
theorem of_leafNode?_none {set : Setting} {offset stop : Nat} {kind : TokenKind}
    {type : NodeType} {fields : Fields} (h : leafNode? set offset stop kind type fields = .ok none) :
    offset = stop ∧ kind ≠ .endOfFile ∧ set.strict = false := by
  unfold leafNode? at h
  split at h
  · cases h
  split at h
  · split at h
    · cases h
    · exact ⟨by simp_all, by simp_all, by simp_all⟩
  split at h
  · cases h
  · cases hr : set.file.range offset stop <;> rw [hr] at h <;> cases h

/-- What a step that makes at most one leaf yields. -/
inductive LeafMade (set : Setting) (d : Draft) (offset : Nat) (kind : TokenKind) (type : NodeType)
    (fields : Fields) : Option NodeId → Draft → Prop where
  | none : set.strict = false → LeafMade set d offset kind type fields none d
  | some (n : Node) (stop : Nat) : n.IsLeafOver set offset stop kind type fields →
    LeafMade set d offset kind type fields (some d.tree.size) (d.add n)

namespace Build

variable {set : Setting} {d : Draft} {offset stop : Nat} {kind : TokenKind} {type : NodeType}
  {fields : Fields}

theorem leaf_yields :
    Yields (leaf set offset stop kind type fields) d fun x d' =>
      (x = none ∧ d' = d ∧ offset = stop ∧ kind ≠ .endOfFile ∧ set.strict = false) ∨
        ∃ n, n.IsLeafOver set offset stop kind type fields ∧ x = some d.tree.size ∧ d' = d.add n := by
  refine .bind (ofExcept_yields fun a ha => ?_)
  cases a with
  | none => exact .pure (.inl ⟨rfl, rfl, of_leafNode?_none ha⟩)
  | some n =>
    exact .map (add_yields (.inr ⟨n, isLeafOver_of_leafNode? ha, rfl, rfl⟩))

theorem expectedLeaf_yields {expected : String} :
    Yields (expectedLeaf set offset expected kind type fields) d
      (LeafMade set d offset kind type fields) := by
  refine .bind (ofExcept_yields fun a ha => ?_)
  cases a with
  | none =>
    refine .pure (.none ?_)
    simp only [expectedStop?] at ha
    split at ha
    · cases ha
    split at ha
    · cases ha
    split at ha
    · cases ha
    · simp_all
  | some stop =>
    refine leaf_yields.mono ?_
    rintro x d' (⟨rfl, rfl, -, -, hs⟩ | ⟨n, hn, rfl, rfl⟩)
    · exact .none hs
    · exact .some n stop hn

/-- What holds again when the leaf of a comment has been added and listed holds when all have been. -/
theorem comments_yields_of {P : Draft → Prop}
    (hleaf : ∀ {d : Draft} {n : Node} {offset stop : Nat}, P d →
      n.IsLeafOver set offset stop .comment .native (tokenFields "") →
      P { d.add n with comments := d.comments.push d.tree.size })
    {cs : List Go.Comment} (h : P d) : Yields (comments set cs) d fun _ d' => P d' := by
  induction cs generalizing d with
  | nil => exact .pure h
  | cons c cs ih =>
    refine .bind (expectedLeaf_yields.mono ?_)
    rintro x d₁ hmade
    cases hmade with
    | none => exact ih h
    | some n stop hn =>
      refine .bind (Q := fun (_ : Unit) (d' : Draft) => P d') ?_
      rintro _ _ ⟨⟩
      exact ih (hleaf h hn)

end Build

/-- The draft after its last node got a number, if it has an origin. -/
def Draft.number (d : Draft) (i : NodeId) (origin : Option Key) : Draft :=
  match origin with
  | some key => d.stamp i key
  | none => d

/-- What a step that makes at most one node over `children` yields. -/
inductive NodeMade (set : Setting) (d : Draft) (origin : Option Key) (type : NodeType)
    (fields : Fields) (children : List NodeId) : Option NodeId → Draft → Prop where
  | none : children = [] → NodeMade set d origin type fields children none d
  | leaf (n : Node) (key : Key) : children = [] → origin = some key →
    n.IsLeafOver set key.start.toNat key.stop.toNat .other type fields →
    NodeMade set d origin type fields children (some d.tree.size)
      ((d.add n).stamp d.tree.size key)
  | inner (first last : NodeId) : children.head? = some first → children.getLast? = some last →
    NodeMade set d origin type fields children (some d.tree.size)
      ((d.add (innerNode d.tree first last children type fields)).number d.tree.size origin)

theorem Build.node_yields {set : Setting} {d : Draft} {origin : Option Key} {type : NodeType}
    {fields : Fields} {children : List NodeId} :
    Yields (Build.node set origin type fields children) d
      (NodeMade set d origin type fields children) := by
  cases children with
  | cons first rest =>
    have hlast : (first :: rest).getLast? = some ((first :: rest).getLastD first) := by
      rw [List.getLast?_cons, List.getLastD_cons, List.getLastD_eq_getLast?]
    refine .bind (.get (.bind (add_yields ?_)))
    cases origin with
    | none => exact .pure (.inner first _ rfl hlast)
    | some key => exact .bind (stamp_yields (.pure (.inner first _ rfl hlast)))
  | nil =>
    cases origin with
    | none => exact .pure (.none rfl)
    | some key =>
      refine .bind (leaf_yields.mono ?_)
      rintro x d' (⟨rfl, rfl, -⟩ | ⟨n, hn, rfl, rfl⟩)
      · exact .pure (.none rfl)
      · exact .bind (stamp_yields (.pure (.leaf n key rfl rfl hn)))

end LosslessGo
