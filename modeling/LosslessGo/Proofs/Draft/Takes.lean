import LosslessGo.Proofs.Draft.Gap
import LosslessGo.Proofs.Draft.Numbers

/-!
# What gathering children leaves alone

Between two children only tokens are added (`Filling.Takes`): nothing that was made before changes,
no function is entered or left, and the children gathered before stay. What is gathered beside the
given children are comments and the tokens that were added, each once.

* `Fill.gap_takes`: a gap takes no child but its comments and new leaves.
* `Fill.append_takes`, `Fill.appendFrom_takes`, `Fill.appendAll_takes`: the given children are taken.
-/

namespace LosslessGo

open scoped List

variable {set : Setting} {d d' d'' : Draft} {f f' f'' : Filling} {xs ys : List NodeId} {offset stop : Nat}

/-- A node without children and without a number, which is no function. -/
structure Node.Plain (n : Node) : Prop where
  children_eq : n.children = []
  flowId_eq : n.flowId = none
  not_function : n.type ≠ .functionDeclaration

theorem Node.IsLeafOver.plain {n : Node} {kind : TokenKind} {type : NodeType} {fields : Fields}
    (h : n.IsLeafOver set offset stop kind type fields) (htype : type ≠ .functionDeclaration)
    (hfields : fields.get? Node.flowIdName = none) : n.Plain := by
  refine ⟨h.children_eq, Node.flowId_of_get? ?_, ?_⟩
  · rw [h.fields_eq]
    exact hfields
  · rw [h.type_eq]
    exact htype

theorem tokenFields_get? (label : String) : (tokenFields label).get? Node.flowIdName = none := by
  apply Fields.get?_ofList_eq_none
  simp [Node.nativeKindName, Node.flowIdName]

/-- A token is plain. -/
theorem Node.IsLeafOver.plain_token {n : Node} {kind : TokenKind} {label : String}
    (h : n.IsLeafOver set offset stop kind .native (tokenFields label)) : n.Plain :=
  h.plain (by decide) (tokenFields_get? label)

/-- Whether the node holds a token of the code. -/
def Node.isListed (n : Node) : Bool := n.token.any (·.kind.isListed)

/-- Tokens of the code are visible. -/
theorem Node.visible_of_listed {n : Node} (h : n.isListed = true) : n.isVisible = true := by
  rw [isListed] at h
  rw [isVisible]
  cases htoken : n.token with
  | none => rfl
  | some token => simpa [htoken] using h

/-- A token of the code that is known by its native kind alone. -/
structure Node.IsText (n : Node) : Prop where
  type_eq : n.type = .native
  fields_eq : ∃ label, n.fields = tokenFields label
  children_eq : n.children = []
  listed : n.isListed = true
  offset_lt : n.offset < n.stop

theorem Node.IsText.plain {n : Node} (h : n.IsText) : n.Plain := by
  obtain ⟨label, hfields⟩ := h.fields_eq
  refine ⟨h.children_eq, Node.flowId_of_get? (hfields ▸ tokenFields_get? label), ?_⟩
  rw [h.type_eq]
  decide

theorem Node.IsLeafOver.isText {n : Node} {kind : TokenKind} {label : String}
    (h : n.IsLeafOver set offset stop kind .native (tokenFields label))
    (hkind : kind.isListed = true) : n.IsText := by
  obtain ⟨range, text, htoken, -⟩ := h.token_eq
  refine ⟨h.type_eq, ⟨label, h.fields_eq⟩, h.children_eq, ?_, ?_⟩
  · simpa [Node.isListed, htoken] using hkind
  · rw [h.offset_eq, h.stop_eq]
    exact h.offset_lt (TokenKind.ne_endOfFile hkind)

/-! ## Places that are added -/

namespace Draft

/-- The places of the nodes that `d'` has and `d` has not. -/
def added (d d' : Draft) : List NodeId := List.range' d.tree.size (d'.tree.size - d.tree.size)

theorem mem_added {i : Nat} : i ∈ d.added d' ↔ d.tree.size ≤ i ∧ i < d'.tree.size := by
  rw [added, List.mem_range'_1]
  omega

theorem added_of_size_eq (h : d'.tree.size = d.tree.size) : d.added d' = [] := by
  simp [added, h]

theorem added_of_size_succ (h : d'.tree.size = d.tree.size + 1) : d.added d' = [d.tree.size] := by
  simp [added, h]

theorem added_append (h : d.tree.size ≤ d'.tree.size) (h' : d'.tree.size ≤ d''.tree.size) :
    d.added d' ++ d'.added d'' = d.added d'' := by
  have hstart : d'.tree.size = d.tree.size + (d'.tree.size - d.tree.size) := by omega
  rw [added, added, added]
  nth_rewrite 2 [hstart]
  rw [List.range'_append_1]
  congr 1
  omega

end Draft

namespace Filling

/-- The children `xs` are gathered, with comments and new tokens before them. -/
structure Takes (f : Filling) (xs : List NodeId) (f' : Filling) : Prop where
  grows : f.draft.Grows f'.draft
  scopes_eq : f'.draft.scopes = f.draft.scopes
  history_eq : f'.draft.history = f.draft.history
  tokens_eq : f'.draft.tokens.toList = f.draft.tokens.toList ++ f.draft.added f'.draft
  perm : ∃ cs, (∀ c ∈ cs, c ∈ f.draft.comments.toList) ∧
    f'.children.toList ~ f.children.toList ++ xs ++ cs ++ f.draft.added f'.draft
  text : ∀ i ∈ f.draft.added f'.draft, (f'.draft.tree.node i).IsText

namespace Takes

theorem keeps (h : f.Takes xs f') : ∀ i ∈ f.children.toList ++ xs, i ∈ f'.children.toList := by
  obtain ⟨cs, -, hperm⟩ := h.perm
  intro i hi
  exact hperm.mem_iff.mpr (List.mem_append_left _ (List.mem_append_left _ hi))

theorem taken (h : f.Takes xs f') : ∀ i ∈ f'.children.toList,
    i ∈ f.children.toList ++ xs ∨ i ∈ f.draft.comments.toList ∨
      f.draft.tree.size ≤ i ∧ i < f'.draft.tree.size := by
  obtain ⟨cs, hcs, hperm⟩ := h.perm
  intro i hi
  rcases List.mem_append.mp (hperm.mem_iff.mp hi) with hi | hi
  · exact (List.mem_append.mp hi).imp_right fun hi => .inl (hcs i hi)
  · exact .inr (.inr (Draft.mem_added.mp hi))

theorem plain (h : f.Takes xs f') : ∀ i, f.draft.tree.size ≤ i → i < f'.draft.tree.size →
    (f'.draft.tree.node i).Plain :=
  fun i hle hlt => (h.text i (Draft.mem_added.mpr ⟨hle, hlt⟩)).plain

theorem trans (h : f.Takes xs f') (h' : f'.Takes ys f'') : f.Takes (xs ++ ys) f'' := by
  have hadded := Draft.added_append h.grows.tree.size_le h'.grows.tree.size_le
  obtain ⟨cs, hcs, hperm⟩ := h.perm
  obtain ⟨cs', hcs', hperm'⟩ := h'.perm
  refine ⟨h.grows.trans h'.grows, h'.scopes_eq.trans h.scopes_eq,
    h'.history_eq.trans h.history_eq, ?_, ⟨cs ++ cs', fun c hc => ?_, ?_⟩, fun i hi => ?_⟩
  · rw [h'.tokens_eq, h.tokens_eq, ← hadded, List.append_assoc]
  · rcases List.mem_append.mp hc with hc | hc
    · exact hcs c hc
    · rw [← h.grows.comments_eq]
      exact hcs' c hc
  · rw [← hadded]
    rw [List.perm_iff_count] at hperm hperm' ⊢
    intro a
    have hcount := hperm a
    have hcount' := hperm' a
    simp only [List.count_append] at hcount hcount' ⊢
    omega
  · rw [← hadded] at hi
    rcases List.mem_append.mp hi with hi | hi
    · rw [h'.grows.tree.node_eq i (Draft.mem_added.mp hi).2]
      exact h.text i hi
    · exact h'.text i hi

/-- The given children are gathered, and nothing is added. -/
theorem of_perm {d : Draft} (cs : List NodeId) (hd : f.draft.Grows d)
    (hscopes : d.scopes = f.draft.scopes) (hhistory : d.history = f.draft.history)
    (htokens : d.tokens = f.draft.tokens) (hsize : d.tree.size = f.draft.tree.size)
    (hcs : ∀ c ∈ cs, c ∈ f.draft.comments.toList) {children : Array NodeId}
    (hperm : children.toList ~ f.children.toList ++ xs ++ cs) : f.Takes xs ⟨d, children⟩ := by
  have hadded : f.draft.added d = [] := Draft.added_of_size_eq hsize
  refine ⟨hd, hscopes, hhistory, ?_, ⟨cs, hcs, ?_⟩, ?_⟩
  · rw [hadded, List.append_nil, htokens]
  · rwa [hadded, List.append_nil]
  · simp [hadded]

theorem refl (f : Filling) : f.Takes [] f :=
  of_perm [] (.refl _) rfl rfl rfl rfl (by simp) (by simp)

/-- A child is gathered. -/
theorem push (f : Filling) (i : NodeId) : f.Takes [i] ⟨f.draft, f.children.push i⟩ :=
  of_perm [] (.refl _) rfl rfl rfl rfl (by simp) (by simp)

/-- A comment is gathered. -/
theorem push_comment {c : NodeId} (hc : c ∈ f.draft.comments.toList) :
    f.Takes [] ⟨f.draft, f.children.push c⟩ :=
  of_perm [c] (.refl _) rfl rfl rfl rfl (by simpa using hc) (by simp)

/-- Comments are counted elsewhere. -/
theorem cursor (f : Filling) (k : Nat) : f.Takes [] ⟨{ f.draft with cursor := k }, f.children⟩ := by
  refine of_perm (d := { f.draft with cursor := k }) [] ⟨.refl _, rfl⟩ rfl rfl rfl rfl (by simp) ?_
  simp

/-- A new token is gathered. -/
theorem push_leaf (f : Filling) {n : Node} (hn : n.IsText) :
    f.Takes [] ⟨f.draft.add n, f.children.push f.draft.tree.size⟩ := by
  have hadded : f.draft.added (f.draft.add n) = [f.draft.tree.size] :=
    Draft.added_of_size_succ Tree.size_push
  have hlisted : n.token.any (·.kind.isListed) = true := hn.listed
  refine ⟨.add _ n, rfl, rfl, ?_, ⟨[], by simp, ?_⟩, fun i hi => ?_⟩
  · rw [hadded]
    simp [Draft.add, hlisted]
  · rw [hadded]
    simp
  · rw [hadded, List.mem_singleton] at hi
    subst hi
    rw [show (f.draft.add n).tree.node f.draft.tree.size = n from Tree.node_push_size]
    exact hn

end Takes

end Filling

namespace Fill

open Filling

/-! ## Gaps -/

theorem token_takes {label : String} {kind : TokenKind} (hkind : kind.isListed = true) :
    Yields (build (Build.token set offset stop label kind) >>= pushSome) f fun _ f' =>
      f.Takes [] f' := by
  refine .bind ((build_yields Build.leaf_yields).mono ?_)
  rintro x ⟨d, cs⟩ ⟨rfl, ⟨rfl, rfl, -⟩ | ⟨n, hn, rfl, rfl⟩⟩
  · exact .pure (.refl f)
  · exact push_yields (.push_leaf f (hn.isText hkind))

theorem pieces_takes {a b : Nat} :
    Yields (pieces set (gapPieces set.source a b)) f fun _ f' => f.Takes [] f' := by
  fun_induction gapPieces set.source a b generalizing f with
  | case1 a i hi m hm =>
    rename_i ih
    simp only [pieces, ← bind_assoc]
    exact .bind ((token_takes (isListed_of_missingAt? hm)).mono fun _ _ h =>
      ih.mono fun _ _ h' => h.trans h')
  | case2 a i hi =>
    simp only [pieces]
    split
    · exact .bind .throw
    · simp only [← bind_assoc]
      exact .bind ((token_takes rfl).mono fun _ _ h => .pure h)
  | case3 => exact .pure (.refl f)

theorem missing_takes : Yields (missing set offset stop) f fun _ f' => f.Takes [] f' := by
  unfold missing
  split
  · split
    · exact .throw
    · exact .pure (.refl f)
  · exact pieces_takes

theorem placeComments_takes {cs : List NodeId} (hcs : ∀ c ∈ cs, c ∈ f.draft.comments.toList) :
    Yields (placeComments set stop cs offset) f fun _ f' => f.Takes [] f' := by
  induction cs generalizing f offset with
  | nil => exact .pure (.refl f)
  | cons c cs ih =>
    have hc : c ∈ f.draft.comments.toList := hcs c (by simp)
    have hrest {f' : Filling} (h : f.Takes [] f') : ∀ c ∈ cs, c ∈ f'.draft.comments.toList := by
      rw [h.grows.comments_eq]
      exact fun c' hc' => hcs c' (by simp [hc'])
    unfold placeComments
    refine .bind (.get ?_)
    simp only
    split
    · split
      · exact .pure (.refl f)
      refine .bind (missing_takes.mono ?_)
      rintro - f₁ h₁
      rw [← h₁.grows.comments_eq] at hc
      have h₂ := (h₁.trans (.push_comment hc)).trans (.cursor _ (f₁.draft.cursor + 1))
      refine .bind (push_yields (.bind (advance_yields ?_)))
      exact (ih (hrest h₂)).mono fun _ _ h₃ => h₂.trans h₃
    · have h₁ := Takes.cursor f (f.draft.cursor + 1)
      exact .bind (advance_yields ((ih (hrest h₁)).mono fun _ _ h₂ => h₁.trans h₂))

theorem gap_takes : Yields (gap set offset stop) f fun _ f' => f.Takes [] f' := by
  have h := Takes.cursor f (f.draft.commentsBefore offset f.draft.cursor)
  refine .bind (rewind_yields (.bind (.get (.bind ?_))))
  refine (placeComments_takes fun c hc => List.mem_of_mem_drop hc).mono fun _ _ h₁ => ?_
  exact missing_takes.mono fun _ _ h₂ => h.trans (h₁.trans h₂)

/-! ## Children -/

theorem appendFrom_takes {i : NodeId} :
    Yields (appendFrom set offset i) f fun _ f' => f.Takes [i] f' :=
  .bind (.get (.bind (gap_takes.mono fun _ _ h => push_yields (h.trans (.push _ i)))))

theorem append_takes {x : Option NodeId} :
    Yields (append set x) f fun _ f' => f.Takes x.toList f' := by
  cases x with
  | none => exact .pure (.refl f)
  | some i =>
    refine .bind (.get ?_)
    split
    · exact push_yields (.push f i)
    simp only
    split
    · split
      · exact .bind .throw
      · exact push_yields (.push f i)
    · exact appendFrom_takes

theorem appendAll_takes {ps : List (Option NodeId)} :
    Yields (appendAll set ps) f fun _ f' => f.Takes ps.reduceOption f' := by
  induction ps generalizing f with
  | nil => exact .pure (.refl f)
  | cons x ps ih =>
    refine .bind (append_takes.mono fun _ _ h => ih.mono fun _ _ h' => ?_)
    have happend : (x :: ps).reduceOption = x.toList ++ ps.reduceOption := by cases x <;> rfl
    rw [happend]
    exact h.trans h'

end Fill

end LosslessGo
