import LosslessGo.Proofs.Draft.Takes
import LosslessGo.Proofs.Tree.Refs

/-!
# What a step adds to a draft

A step that makes nodes adds them behind those that are there, children before their parents, and
hands out numbers on the way.

* `Draft.Grafts`: where the children of the new nodes are, and which of the new nodes are not below
  the results of the step.
* `Draft.Makes`: besides, which numbers were handed out, and to which of the new nodes.
* `Makes.trans`: two steps, one after the other.
* `Makes.node`: a node over the results of a step, numbered with them.
* `Makes.function`: a node over the results of a step that had a scope of its own.
-/

namespace LosslessGo

open Go (Key)
open LosslessGo.Flow (IdScope IdScopes)

variable {set : Setting} {d d' d'' d₁ d₂ : Draft} {xs ys : List NodeId} {events events' : List Event}
  {own own' : List (NodeId × Key)}

namespace Draft

/-- Place `i` is of a node that `d'` has and `d` has not. -/
def Adds (d d' : Draft) (i : Nat) : Prop := d.tree.size ≤ i ∧ i < d'.tree.size

/-- The nodes from place `a` to place `b` have their children there, comments apart. -/
def Encloses (d : Draft) (a b : Nat) : Prop :=
  ∀ i, a ≤ i → i ≤ b → ∀ c ∈ d.tree.children i, a ≤ c ∧ c < i ∨ c ∈ d.comments.toList

/-- Node `f` is a function with a number. -/
structure IsNumberedFunction (d : Draft) (f : NodeId) : Prop where
  type_eq : (d.tree.node f).type = .functionDeclaration
  flowId_ne : (d.tree.node f).flowId ≠ none

/-- A step adds nodes whose children are new or comments, with results `xs`. The nodes with numbers
are all below the results. -/
structure Grafts (d : Draft) (xs : List NodeId) (d' : Draft) : Prop where
  grows : d.Grows d'
  encloses : ∀ i, d.Adds d' i → d'.Encloses d.tree.size i
  results : ∀ i ∈ xs, d.Adds d' i ∨ i ∈ d.comments.toList
  hidden : ∀ i, d.Adds d' i → (d'.tree.node i).isVisible = false → (d'.tree.node i).Plain
  rooted : ∀ i, d.Adds d' i → (d'.tree.node i).flowId ≠ none →
    ∃ r ∈ xs, d.Adds d' r ∧ d'.tree.Below r i

/-- A step adds nodes with results `xs`, and hands out numbers to the nodes of `own`. The other new
nodes with numbers are strictly below functions, and those of `own` are not. -/
structure Makes (d : Draft) (xs : List NodeId) (d' : Draft) (events : List Event)
    (own : List (NodeId × Key)) : Prop extends Grafts d xs d' where
  history_eq : d'.history = events ++ d.history
  numbers : Numbers events own
  scopes_eq : d'.scopes = d.scopes.assignAll own
  numbered : d'.tree.Numbered d.scopes.current own
  adds : ∀ e ∈ own, d.Adds d' e.1
  owned : ∀ i, d.Adds d' i → (d'.tree.node i).flowId ≠ none → (∃ key, (i, key) ∈ own) ∨
    ∃ f, d.Adds d' f ∧ d'.IsNumberedFunction f ∧ d'.tree.Under f i
  apart : ∀ e ∈ own, ∀ f, d.Adds d' f → (d'.tree.node f).type = .functionDeclaration →
    ∃ a ≤ f, d'.Encloses a f ∧ (e.1 < a ∨ f ≤ e.1)

theorem Encloses.grows {a b : Nat} (h : d.Encloses a b) (hg : d.Grows d') (hb : b < d.tree.size) :
    d'.Encloses a b := by
  intro i ha hi c hc
  rw [hg.tree.children_eq (hi.trans_lt hb)] at hc
  rw [hg.comments_eq]
  exact h i ha hi c hc

theorem IsNumberedFunction.grows {f : NodeId} (h : d.IsNumberedFunction f) (hg : d.Grows d')
    (hf : f < d.tree.size) : d'.IsNumberedFunction f := by
  have hnode := hg.tree.node_eq f hf
  exact ⟨hnode ▸ h.type_eq, hnode ▸ h.flowId_ne⟩

/-- A new node of two steps is of the first or of the second. -/
theorem Adds.split {i : Nat} (h : d.Adds d'' i) (d' : Draft) : d.Adds d' i ∨ d'.Adds d'' i := by
  by_cases hlt : i < d'.tree.size
  · exact .inl ⟨h.1, hlt⟩
  · exact .inr ⟨by omega, h.2⟩

theorem Adds.left {i : Nat} (h : d.Adds d' i) (hg : d'.Grows d'') : d.Adds d'' i :=
  ⟨h.1, h.2.trans_le hg.tree.size_le⟩

theorem Adds.right {i : Nat} (h : d'.Adds d'' i) (hg : d.Grows d') : d.Adds d'' i :=
  ⟨hg.tree.size_le.trans h.1, h.2⟩

namespace Grafts

theorem refl (d : Draft) : d.Grafts [] d :=
  ⟨.refl d, fun i hi => absurd hi.2 (by have := hi.1; omega), by simp,
    fun i hi => absurd hi.2 (by have := hi.1; omega),
    fun i hi => absurd hi.2 (by have := hi.1; omega)⟩

theorem trans (h : d.Grafts xs d') (h' : d'.Grafts ys d'') : d.Grafts (xs ++ ys) d'' := by
  have hle := h.grows.tree.size_le
  refine ⟨h.grows.trans h'.grows, fun i hi => ?_, fun i hi => ?_, fun i hi hv => ?_,
    fun i hi hn => ?_⟩
  · intro j ha hj c hc
    rcases (show d.Adds d'' j from ⟨ha, hj.trans_lt hi.2⟩).split d' with hj₁ | hj₁
    · exact (h.encloses j hj₁).grows h'.grows hj₁.2 j ha (Nat.le_refl j) c hc
    · rcases h'.encloses j hj₁ j hj₁.1 (Nat.le_refl j) c hc with ⟨hc, hlt⟩ | hc
      · exact .inl ⟨hle.trans hc, hlt⟩
      · exact .inr hc
  · rcases List.mem_append.mp hi with hi | hi
    · exact (h.results i hi).imp_left fun hi => hi.left h'.grows
    · rw [← h.grows.comments_eq]
      exact (h'.results i hi).imp_left fun hi => hi.right h.grows
  · rcases hi.split d' with hi₁ | hi₁
    · rw [h'.grows.tree.node_eq i hi₁.2] at hv ⊢
      exact h.hidden i hi₁ hv
    · exact h'.hidden i hi₁ hv
  · rcases hi.split d' with hi₁ | hi₁
    · rw [h'.grows.tree.node_eq i hi₁.2] at hn
      obtain ⟨r, hr, hadds, hbelow⟩ := h.rooted i hi₁ hn
      exact ⟨r, List.mem_append_left _ hr, hadds.left h'.grows, hbelow.grows h'.grows.tree⟩
    · obtain ⟨r, hr, hadds, hbelow⟩ := h'.rooted i hi₁ hn
      exact ⟨r, List.mem_append_right _ hr, hadds.right h.grows, hbelow⟩

/-- Without results no new node has a number. -/
theorem flowId_eq_none (h : d.Grafts [] d') {i : Nat} (hi : d.Adds d' i) :
    (d'.tree.node i).flowId = none := by
  by_contra hn
  obtain ⟨r, hr, -⟩ := h.rooted i hi hn
  cases hr

/-- A node over the results is added. -/
theorem push (h : d.Grafts xs d₁) {n : Node} (htree : d₂.tree = d₁.tree.push n)
    (hcomments : d₂.comments = d₁.comments) (hchildren : n.children = xs)
    (hhidden : n.isVisible = false → n.Plain) : d.Grafts [d₁.tree.size] d₂ := by
  have hg : d₁.Grows d₂ := ⟨htree ▸ .push _ _, hcomments⟩
  have hle := h.grows.tree.size_le
  have hsize : d₂.tree.size = d₁.tree.size + 1 := by rw [htree, Tree.size_push]
  have hnode : d₂.tree.node d₁.tree.size = n := by rw [htree, Tree.node_push_size]
  have hadds : ∀ i, d.Adds d₂ i → d.Adds d₁ i ∨ i = d₁.tree.size := fun i hi => by
    have := hi.2
    by_cases hlt : i < d₁.tree.size
    · exact .inl ⟨hi.1, hlt⟩
    · exact .inr (by omega)
  refine ⟨h.grows.trans hg, fun i hi j ha hj c hc => ?_, fun i hi => ?_, fun i hi hv => ?_,
    fun i hi hflow => ?_⟩
  · rcases hadds j ⟨ha, hj.trans_lt hi.2⟩ with hj₁ | rfl
    · exact (h.encloses j hj₁).grows hg hj₁.2 j ha (Nat.le_refl j) c hc
    · rw [Tree.children, hnode, hchildren] at hc
      rw [(h.grows.trans hg).comments_eq]
      exact h.results c hc
  · obtain rfl := List.mem_singleton.mp hi
    exact .inl ⟨hle, by omega⟩
  · rcases hadds i hi with hi₁ | rfl
    · rw [hg.tree.node_eq i hi₁.2] at hv ⊢
      exact h.hidden i hi₁ hv
    · rw [hnode] at hv ⊢
      exact hhidden hv
  · refine ⟨d₁.tree.size, List.mem_singleton_self _, ⟨hle, by omega⟩, ?_⟩
    rcases hadds i hi with hi₁ | rfl
    · rw [hg.tree.node_eq i hi₁.2] at hflow
      obtain ⟨r, hr, -, hbelow⟩ := h.rooted i hi₁ hflow
      refine .head ?_ (hbelow.grows hg.tree)
      rw [Tree.children, hnode, hchildren]
      exact hr
    · exact .refl _ _

/-- A plain node is added. -/
theorem leaf (d : Draft) {n : Node} (hn : n.Plain) : d.Grafts [d.tree.size] (d.add n) :=
  (refl d).push rfl rfl hn.children_eq fun _ => hn

end Grafts

/-! ## Steps that number nothing -/

namespace Makes

theorem refl (d : Draft) : d.Makes [] d [] [] where
  toGrafts := .refl d
  history_eq := rfl
  numbers := .nil
  scopes_eq := rfl
  numbered := trivial
  adds := by simp
  owned i hi hn := absurd ((Grafts.refl d).flowId_eq_none hi) hn
  apart := by simp

/-- A plain node is added. -/
theorem leaf (d : Draft) {n : Node} (hn : n.Plain) : d.Makes [d.tree.size] (d.add n) [] [] where
  toGrafts := .leaf d hn
  history_eq := rfl
  numbers := .nil
  scopes_eq := rfl
  numbered := trivial
  adds := by simp
  owned i hi hflow := by
    obtain ⟨r, hr, -, hbelow⟩ := (Grafts.leaf d hn).rooted i hi hflow
    have hnode : (d.add n).tree.node d.tree.size = n := Tree.node_push_size
    have hlt : i < (d.tree.push n).size := hi.2
    have hle := hi.1
    rw [Tree.size_push] at hlt
    obtain rfl : i = d.tree.size := by omega
    rw [hnode] at hflow
    exact absurd hn.flowId_eq hflow
  apart := by simp

/-- Other results lead to the same nodes. -/
theorem of_grafts (h : d.Makes xs d' events own) (hg : d.Grafts ys d') :
    d.Makes ys d' events own :=
  { h with toGrafts := hg }

/-- One step after the other. -/
theorem trans (h : d.Makes xs d' events own) (h' : d'.Makes ys d'' events' own') :
    d.Makes (xs ++ ys) d'' (events' ++ events) (own' ++ own) where
  toGrafts := h.toGrafts.trans h'.toGrafts
  history_eq := by rw [h'.history_eq, h.history_eq, List.append_assoc]
  numbers := h.numbers.append h'.numbers
  scopes_eq := by rw [h'.scopes_eq, h.scopes_eq, IdScopes.assignAll_append]
  numbered := by
    refine .append (h.numbered.grows h'.grows.tree fun e he => (h.adds e he).2) ?_
    rw [← IdScopes.current_assignAll, ← h.scopes_eq]
    exact h'.numbered
  adds e he := by
    rcases List.mem_append.mp he with he | he
    · exact (h'.adds e he).right h.grows
    · exact (h.adds e he).left h'.grows
  owned i hi hn := by
    rcases hi.split d' with hi₁ | hi₁
    · rw [h'.grows.tree.node_eq i hi₁.2] at hn
      rcases h.owned i hi₁ hn with ⟨key, hown⟩ | ⟨f, hf, hfun, hunder⟩
      · exact .inl ⟨key, List.mem_append_right _ hown⟩
      · exact .inr ⟨f, hf.left h'.grows, hfun.grows h'.grows hf.2, hunder.grows h'.grows.tree⟩
    · rcases h'.owned i hi₁ hn with ⟨key, hown⟩ | ⟨f, hf, hfun, hunder⟩
      · exact .inl ⟨key, List.mem_append_left _ hown⟩
      · exact .inr ⟨f, hf.right h.grows, hfun, hunder⟩
  apart e he f hf htype := by
    have hle := h.grows.tree.size_le
    -- Nodes of one step are not among those that functions of the other enclose.
    rcases List.mem_append.mp he with he | he <;> rcases hf.split d' with hf₁ | hf₁
    · have he₂ := (h'.adds e he).1
      have hf₂ := hf₁.2
      exact ⟨d.tree.size, hf₁.1, (h.encloses f hf₁).grows h'.grows hf₁.2, .inr (by omega)⟩
    · exact h'.apart e he f hf₁ htype
    · rw [h'.grows.tree.node_eq f hf₁.2] at htype
      obtain ⟨a, hle, ha, hapart⟩ := h.apart e he f hf₁ htype
      exact ⟨a, hle, ha.grows h'.grows hf₁.2, hapart⟩
    · exact ⟨d'.tree.size, hf₁.1, h'.encloses f hf₁, .inl (h.adds e he).2⟩

/-- Children are gathered that were made before. -/
theorem takes {f f' : Filling} (h : d.Makes (f.children.toList ++ (xs ++ ys)) f.draft events own)
    (ht : f.Takes xs f') : d.Makes (f'.children.toList ++ ys) f'.draft events own where
  grows := h.grows.trans ht.grows
  encloses i hi j ha hj c hc := by
    rcases (show d.Adds f'.draft j from ⟨ha, hj.trans_lt hi.2⟩).split f.draft with hj₁ | hj₁
    · exact (h.encloses j hj₁).grows ht.grows hj₁.2 j ha (Nat.le_refl j) c hc
    · rw [Tree.children, (ht.plain j hj₁.1 hj₁.2).children_eq] at hc
      cases hc
  results i hi := by
    rcases List.mem_append.mp hi with hi | hi
    · rcases ht.taken i hi with hi | hi | hi
      · rw [← List.append_assoc] at h
        exact (h.results i (List.mem_append_left _ hi)).imp_left fun hi => hi.left ht.grows
      · rw [← h.grows.comments_eq]
        exact .inr hi
      · exact .inl (Adds.right hi h.grows)
    · exact (h.results i (by simp [hi])).imp_left fun hi => hi.left ht.grows
  hidden i hi hv := by
    rcases hi.split f.draft with hi₁ | hi₁
    · rw [ht.grows.tree.node_eq i hi₁.2] at hv ⊢
      exact h.hidden i hi₁ hv
    · exact ht.plain i hi₁.1 hi₁.2
  rooted i hi hn := by
    rcases hi.split f.draft with hi₁ | hi₁
    · rw [ht.grows.tree.node_eq i hi₁.2] at hn
      obtain ⟨r, hr, hadds, hbelow⟩ := h.rooted i hi₁ hn
      refine ⟨r, ?_, hadds.left ht.grows, hbelow.grows ht.grows.tree⟩
      rw [← List.append_assoc] at hr
      rcases List.mem_append.mp hr with hr | hr
      · exact List.mem_append_left _ (ht.keeps r hr)
      · exact List.mem_append_right _ hr
    · exact absurd (ht.plain i hi₁.1 hi₁.2).flowId_eq hn
  history_eq := ht.history_eq.trans h.history_eq
  numbers := h.numbers
  scopes_eq := ht.scopes_eq.trans h.scopes_eq
  numbered := h.numbered.grows ht.grows.tree fun e he => (h.adds e he).2
  adds e he := (h.adds e he).left ht.grows
  owned i hi hn := by
    rcases hi.split f.draft with hi₁ | hi₁
    · rw [ht.grows.tree.node_eq i hi₁.2] at hn
      refine (h.owned i hi₁ hn).imp_right ?_
      rintro ⟨g, hg, hfun, hunder⟩
      exact ⟨g, hg.left ht.grows, hfun.grows ht.grows hg.2, hunder.grows ht.grows.tree⟩
    · exact absurd (ht.plain i hi₁.1 hi₁.2).flowId_eq hn
  apart e he g hg htype := by
    rcases hg.split f.draft with hg₁ | hg₁
    · rw [ht.grows.tree.node_eq g hg₁.2] at htype
      obtain ⟨a, hle, ha, hapart⟩ := h.apart e he g hg₁ htype
      exact ⟨a, hle, ha.grows ht.grows hg₁.2, hapart⟩
    · exact absurd htype (ht.plain g hg₁.1 hg₁.2).not_function

end Makes

end Draft

/-! ## Steps that make a node -/

/-- The flow graph among the fields of a node. -/
def Fields.flowGraph (fields : Fields) : Option Flow.Graph :=
  match fields.get? "cfg" with
  | some (.graph g) => g
  | _ => none

/-- Node `n` is added over the nodes `xs`, and numbered if it has an origin. -/
structure Draft.Tops (d : Draft) (origin : Option Key) (type : NodeType) (fields : Fields)
    (xs : List NodeId) (n : Node) (d' : Draft) : Prop where
  tree_eq : d'.tree = d.tree.push n
  comments_eq : d'.comments = d.comments
  history_eq : d'.history = (origin.map (Event.numbered d.tree.size)).toList ++ d.history
  scopes_eq : d'.scopes = d.scopes.assignAll (origin.map fun key => (d.tree.size, key)).toList
  children_eq : n.children = xs
  type_eq : n.type = type
  visible : n.isVisible = true
  tokens_eq : d'.tokens = if n.isListed then d.tokens.push d.tree.size else d.tokens
  offset_lt : n.isListed = true → n.offset < n.stop
  fields_eq : n.fields = fields ∨ ∃ number, n.fields = fields.insert Node.flowIdName (.int number)
  flowId_eq : n.flowId = origin.map fun _ => (d.scopes.current.next : Int)
  flowGraph_eq : n.fields.flowGraph = fields.flowGraph

section Tops

variable {origin : Option Key} {type : NodeType} {fields : Fields} {n : Node} {x : Option NodeId}

theorem Draft.tops_number (d : Draft) (origin : Option Key)
    (hflow : n.fields.get? Node.flowIdName = none) (hvisible : n.isVisible = true)
    (hoffset : n.isListed = true → n.offset < n.stop) :
    ∃ m, d.Tops origin n.type n.fields n.children m ((d.add n).number d.tree.size origin) := by
  cases origin with
  | none =>
    exact ⟨n, rfl, rfl, rfl, rfl, rfl, rfl, hvisible, rfl, hoffset, .inl rfl,
      Node.flowId_of_get? hflow, rfl⟩
  | some key =>
    refine ⟨_, Tree.modify_push _ _ _, rfl, rfl, rfl, rfl, rfl, hvisible, rfl, hoffset,
      .inr ⟨_, rfl⟩, n.flowId_insert _, ?_⟩
    have hne : ¬ "cfg" = Node.flowIdName := by decide
    simp only [Fields.flowGraph, Fields.get?_insert, if_neg hne]

/-- A node is made over the given children, or there are none. -/
theorem NodeMade.tops (h : NodeMade set d origin type fields xs x d')
    (hflow : fields.get? Node.flowIdName = Option.none) :
    xs = [] ∧ x = Option.none ∧ d' = d ∨
      x = some d.tree.size ∧ ∃ n, d.Tops origin type fields xs n d' := by
  cases h with
  | none he => exact .inl ⟨he, rfl, rfl⟩
  | leaf n key he ho hn =>
    obtain ⟨range, text, htoken, -⟩ := hn.token_eq
    have hvisible : n.isVisible = true := by simp [Node.isVisible, htoken, TokenKind.isListed]
    have hoffset : n.isListed = true → n.offset < n.stop := fun _ => by
      rw [hn.offset_eq, hn.stop_eq]
      exact hn.offset_lt (by decide)
    obtain ⟨m, hm⟩ := d.tops_number (some key) (hn.fields_eq ▸ hflow) hvisible hoffset
    rw [hn.type_eq, hn.fields_eq, hn.children_eq] at hm
    subst he ho
    exact .inr ⟨rfl, m, hm⟩
  | inner first last hfirst hlast =>
    obtain ⟨m, hm⟩ := d.tops_number (n := innerNode d.tree first last xs type fields) origin hflow
      rfl (fun hlisted => by cases hlisted)
    exact .inr ⟨rfl, m, hm⟩

namespace Draft.Tops

variable (h : d₁.Tops origin type fields xs n d₂)

include h

theorem entries : ∀ e ∈ n.fields.entries, e ∈ fields.entries ∨ e.1 = Node.flowIdName := by
  intro e he
  rcases h.fields_eq with heq | ⟨number, heq⟩
  · exact .inl (heq ▸ he)
  · rw [heq] at he
    rcases Fields.mem_insert he with rfl | he
    · exact .inr rfl
    · exact .inl he

theorem refs_subperm : n.refs.Subperm fields.refs := by
  rcases h.fields_eq with heq | ⟨number, heq⟩
  · rw [Node.refs, heq]
  · rw [Node.refs, heq]
    exact Fields.refs_insert

theorem ordered (hfields : fields.Ordered) : n.fields.Ordered := by
  rcases h.fields_eq with heq | ⟨number, heq⟩
  · rwa [heq]
  · rw [heq]
    exact hfields.insert

theorem grows : d₁.Grows d₂ := ⟨h.tree_eq ▸ .push _ _, h.comments_eq⟩

theorem size_eq : d₂.tree.size = d₁.tree.size + 1 := by rw [h.tree_eq, Tree.size_push]

theorem node_eq : d₂.tree.node d₁.tree.size = n := by rw [h.tree_eq, Tree.node_push_size]

theorem adds (hle : d.tree.size ≤ d₁.tree.size) : d.Adds d₂ d₁.tree.size := by
  have hsize := h.size_eq
  exact ⟨hle, by omega⟩

/-- A new node was there before, or is the one that is added. -/
theorem split {i : Nat} (hi : d.Adds d₂ i) : d.Adds d₁ i ∨ i = d₁.tree.size := by
  have hsize := h.size_eq
  rcases hi.split d₁ with hi₁ | ⟨hle, hlt⟩
  · exact .inl hi₁
  · exact .inr (by omega)

theorem grafts (hg : d.Grafts xs d₁) : d.Grafts [d₁.tree.size] d₂ := by
  refine hg.push h.tree_eq h.comments_eq h.children_eq fun hv => ?_
  rw [h.visible] at hv
  cases hv

end Draft.Tops

namespace Draft

/-- A node is made over the results, and numbered in their scope. -/
theorem Makes.node (h : d.Makes xs d₁ events own)
    (hmade : NodeMade set d₁ origin type fields xs x d₂) (htype : type ≠ .functionDeclaration)
    (hflow : fields.get? Node.flowIdName = none) :
    ∃ events' own', d.Makes x.toList d₂ events' own' := by
  rcases hmade.tops hflow with ⟨rfl, rfl, rfl⟩ | ⟨rfl, n, ht⟩
  · exact ⟨_, _, h⟩
  have hg := ht.grows
  have hnew := ht.adds h.grows.tree.size_le
  refine ⟨(origin.map (Event.numbered d₁.tree.size)).toList ++ events,
    (origin.map fun key => (d₁.tree.size, key)).toList ++ own,
    { toGrafts := ht.grafts h.toGrafts, history_eq := ?_, numbers := ?_, scopes_eq := ?_,
      numbered := ?_, adds := ?_, owned := ?_, apart := ?_ }⟩
  · rw [ht.history_eq, h.history_eq, List.append_assoc]
  · cases origin with
    | none => exact h.numbers
    | some key => exact .numbered _ key h.numbers
  · rw [ht.scopes_eq, h.scopes_eq, IdScopes.assignAll_append]
  · have hown := h.numbered.grows hg.tree fun e he => (h.adds e he).2
    cases origin with
    | none => exact hown
    | some key =>
      refine ⟨?_, hown⟩
      show (d₂.tree.node d₁.tree.size).flowId = _
      rw [ht.node_eq, ht.flowId_eq, h.scopes_eq, IdScopes.current_assignAll]
      rfl
  · intro e he
    rcases List.mem_append.mp he with he | he
    · obtain ⟨key, -, rfl⟩ := Option.map_eq_some_iff.mp (Option.mem_toList.mp he)
      exact hnew
    · exact (h.adds e he).left hg
  · intro i hi hn
    rcases ht.split hi with hi₁ | rfl
    · rw [hg.tree.node_eq i hi₁.2] at hn
      rcases h.owned i hi₁ hn with ⟨key, hown⟩ | ⟨f, hf, hfun, hunder⟩
      · exact .inl ⟨key, List.mem_append_right _ hown⟩
      · exact .inr ⟨f, hf.left hg, hfun.grows hg hf.2, hunder.grows hg.tree⟩
    · cases origin with
      | none => exact absurd (ht.node_eq ▸ ht.flowId_eq) hn
      | some key => exact .inl ⟨key, List.mem_cons_self⟩
  · intro e he f hf hfun
    rcases ht.split hf with hf₁ | rfl
    · rw [hg.tree.node_eq f hf₁.2] at hfun
      rcases List.mem_append.mp he with he | he
      · obtain ⟨key, -, rfl⟩ := Option.map_eq_some_iff.mp (Option.mem_toList.mp he)
        exact ⟨d.tree.size, hf₁.1, (h.encloses f hf₁).grows hg hf₁.2, .inr hf₁.2.le⟩
      · obtain ⟨a, hle, ha, hapart⟩ := h.apart e he f hf₁ hfun
        exact ⟨a, hle, ha.grows hg hf₁.2, hapart⟩
    · rw [ht.node_eq, ht.type_eq] at hfun
      exact absurd hfun htype

/-- A function node is made over the results, which have a scope of their own, and is numbered in the
scope around. -/
theorem Makes.function {key : Key} (h : d.enter.Makes xs d₁ events own)
    (hmade : NodeMade set d₁.leave (some key) .functionDeclaration fields xs x d₂)
    (hflow : fields.get? Node.flowIdName = none) :
    ∃ events', d.Makes x.toList d₂ events' (x.toList.map fun i => (i, key)) := by
  have hgrafts : d.Grafts xs d₁.leave :=
    ⟨⟨h.grows.tree, h.grows.comments_eq⟩, h.encloses, h.results, h.hidden, h.rooted⟩
  have hhistory : d₁.leave.history = (.left :: (events ++ [.entered])) ++ d.history := by
    rw [List.cons_append, List.append_assoc]
    exact congrArg (Event.left :: ·) h.history_eq
  have hscopes : d₁.leave.scopes = d.scopes := by
    show d₁.scopes.leave.2 = d.scopes
    rw [h.scopes_eq]
    exact congrArg Prod.snd d.scopes.leave_assignAll_enter
  have hnumbers : Numbers (.left :: (events ++ [.entered])) [] := .function h.numbers .nil
  rcases hmade.tops hflow with ⟨rfl, rfl, rfl⟩ | ⟨rfl, n, ht⟩
  · refine ⟨_,
      { toGrafts := hgrafts, history_eq := hhistory, numbers := hnumbers, scopes_eq := hscopes,
        numbered := trivial, adds := ?_, owned := fun i hi hn => ?_, apart := ?_ }⟩
    · simp
    · exact absurd (hgrafts.flowId_eq_none hi) hn
    · simp
  have hg := ht.grows
  have hnew := ht.adds hgrafts.grows.tree.size_le
  have hnode : d₂.IsNumberedFunction d₁.leave.tree.size := by
    refine ⟨ht.node_eq ▸ ht.type_eq, ?_⟩
    rw [ht.node_eq, ht.flowId_eq]
    nofun
  refine ⟨.numbered d₁.leave.tree.size key :: .left :: (events ++ [.entered]),
    { toGrafts := ht.grafts hgrafts, history_eq := ?_, numbers := .numbered _ key hnumbers,
      scopes_eq := ?_, numbered := ⟨?_, trivial⟩, adds := ?_, owned := ?_, apart := ?_ }⟩
  · rw [ht.history_eq, hhistory]
    rfl
  · rw [ht.scopes_eq, hscopes]
    rfl
  · show (d₂.tree.node d₁.leave.tree.size).flowId = _
    rw [ht.node_eq, ht.flowId_eq, hscopes]
    rfl
  · intro e he
    obtain rfl := List.mem_singleton.mp he
    exact hnew
  · intro i hi hn
    rcases ht.split hi with hi₁ | rfl
    · rw [hg.tree.node_eq i hi₁.2] at hn
      obtain ⟨r, hr, -, hbelow⟩ := hgrafts.rooted i hi₁ hn
      refine .inr ⟨_, hnew, hnode, r, ?_, hbelow.grows hg.tree⟩
      rw [Tree.children, ht.node_eq, ht.children_eq]
      exact hr
    · exact .inl ⟨key, List.mem_singleton_self _⟩
  · intro e he f hf hfun
    obtain rfl := List.mem_singleton.mp he
    have hlt := hf.2
    have hsize := ht.size_eq
    have hle : f ≤ d₁.leave.tree.size := by omega
    exact ⟨d.tree.size, hf.1, (ht.grafts hgrafts).encloses f hf, .inr hle⟩

end Draft

end Tops

end LosslessGo
