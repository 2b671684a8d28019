import LosslessGo.Proofs.Draft.Operations

/-!
# Comments under any operations

The comments of a draft are leaves of its tree, and its cursor counts some of them (`Draft.Tracked`).
This holds after any operations, however they end, although every gap moves the cursor: a gap goes back
no further than to the first comment, and leaves no comment behind but those that it looks at.

* `Fill.placeComments_tracked`, `Fill.gap_tracked`: a gap moves the cursor among the comments.
* `Operation.after_tracked`, `Draft.Tracked.run`: an operation, and any sequence of them.
-/

namespace LosslessGo

open Go (Key)

variable {set : Setting} {d d' : Draft} {f : Filling} {n : Node} {offset stop j k : Nat}
  {type : NodeType} {fields : Fields} {origin : Option Key} {children : List NodeId} {i : NodeId}

/-- A comment that is not empty. -/
structure Node.IsComment (n : Node) : Prop where
  isComment : n.isComment = true
  offset_lt : n.offset < n.stop

/-- The comments are leaves of the tree, and the cursor leaves `k` of them at least. -/
structure Draft.Tracked (k : Nat) (d : Draft) : Prop where
  cursor_add_le : d.cursor + k ≤ d.comments.size
  lt_size : ∀ c ∈ d.comments.toList, c < d.tree.size
  isComment : ∀ c ∈ d.comments.toList, (d.tree.node c).IsComment

theorem Draft.commentsBefore_le (d : Draft) (offset k : Nat) : d.commentsBefore offset k ≤ k := by
  fun_induction d.commentsBefore offset k with
  | case1 => exact Nat.le_refl _
  | case2 k h ih => exact Nat.le_succ_of_le ih
  | case3 => exact Nat.le_refl _

namespace Draft.Tracked

theorem empty : Draft.empty.Tracked 0 := ⟨Nat.le_refl _, nofun, nofun⟩

theorem of_le (h : d.Tracked k) (hj : j ≤ k) : d.Tracked j :=
  { h with cursor_add_le := Nat.le_trans (Nat.add_le_add_left hj _) h.cursor_add_le }

/-- The scopes and the tokens have no part in it. -/
theorem of_eq (h : d.Tracked k) (htree : d'.tree = d.tree) (hcomments : d'.comments = d.comments)
    (hcursor : d'.cursor = d.cursor) : d'.Tracked k := by
  obtain ⟨hle, hlt, hleaf⟩ := h
  rw [← hcomments, ← htree] at hlt hleaf
  exact ⟨by rwa [hcursor, hcomments], hlt, hleaf⟩

theorem add (h : d.Tracked k) (n : Node) : (d.add n).Tracked k where
  cursor_add_le := h.cursor_add_le
  lt_size := fun c hc => by
    have hsize : (d.add n).tree.size = d.tree.size + 1 := Tree.size_push
    rw [hsize]
    exact Nat.lt_succ_of_lt (h.lt_size c hc)
  isComment := fun c hc => by
    have hnode : (d.add n).tree.node c = d.tree.node c := Tree.node_push_of_lt (h.lt_size c hc)
    rw [hnode]
    exact h.isComment c hc

theorem leafClosed : Draft.LeafClosed set (Draft.Tracked k) := fun _ h => h.add _

/-- A number is a field, and comments are known by their tokens. -/
theorem stamp (h : d.Tracked k) (i : NodeId) (key : Key) : (d.stamp i key).Tracked k where
  cursor_add_le := h.cursor_add_le
  lt_size := fun c hc => by
    have hsize : (d.stamp i key).tree.size = d.tree.size := Tree.size_modify
    rw [hsize]
    exact h.lt_size c hc
  isComment := fun c hc => by
    have hleaf := h.isComment c hc
    by_cases hic : i = c
    · subst hic
      have hnode : ∃ fields, (d.stamp i key).tree.node i = { d.tree.node i with fields } :=
        ⟨_, Tree.node_modify_self (h.lt_size i hc)⟩
      obtain ⟨fields, hnode⟩ := hnode
      rw [hnode]
      exact ⟨hleaf.isComment, hleaf.offset_lt⟩
    · have hnode : (d.stamp i key).tree.node c = d.tree.node c := Tree.node_modify_of_ne hic
      rw [hnode]
      exact hleaf

/-- A comment is added. -/
theorem push (h : d.Tracked k) (hi : i < d.tree.size) (hleaf : (d.tree.node i).IsComment) :
    Draft.Tracked k { d with comments := d.comments.push i } := by
  have hmem {c : NodeId} (hc : c ∈ (d.comments.push i).toList) : c ∈ d.comments.toList ∨ c = i := by
    simpa using hc
  refine ⟨?_, fun c hc => ?_, fun c hc => ?_⟩
  · have hsize : (d.comments.push i).size = d.comments.size + 1 := Array.size_push ..
    show d.cursor + k ≤ (d.comments.push i).size
    rw [hsize]
    exact Nat.le_succ_of_le h.cursor_add_le
  · rcases hmem hc with hc | rfl
    · exact h.lt_size c hc
    · exact hi
  · rcases hmem hc with hc | rfl
    · exact h.isComment c hc
    · exact hleaf

theorem advance (h : d.Tracked (k + 1)) : Draft.Tracked k { d with cursor := d.cursor + 1 } :=
  { h with cursor_add_le := by rw [Nat.add_right_comm]; exact h.cursor_add_le }

/-- Going back leaves all the comments from there on. -/
theorem rewind (h : d.Tracked k) (offset : Nat) :
    Draft.Tracked (d.comments.size - d.commentsBefore offset d.cursor)
      { d with cursor := d.commentsBefore offset d.cursor } where
  cursor_add_le := by
    have hle := d.commentsBefore_le offset d.cursor
    have hcursor := h.cursor_add_le
    show d.commentsBefore offset d.cursor + (d.comments.size - d.commentsBefore offset d.cursor) ≤
      d.comments.size
    omega
  lt_size := h.lt_size
  isComment := h.isComment

end Draft.Tracked

/-! ## Steps on a draft -/

namespace Build

theorem node_tracked (h : d.Tracked k) :
    Ends (node set origin type fields children) d (Draft.Tracked k) := by
  cases children with
  | nil =>
    cases origin with
    | none => exact .pure h
    | some key =>
      refine .seq (Draft.Tracked.leafClosed.leaf h) fun x d' h' => ?_
      cases x with
      | none => exact .pure h'
      | some i => exact .seq (.of_ok rfl (h'.stamp i key)) fun _ _ h'' => .pure h''
  | cons first rest =>
    refine .get (.seq (.of_ok rfl (h.add _)) fun i d' h' => ?_)
    cases origin with
    | none => exact .pure h'
    | some key => exact .seq (.of_ok rfl (h'.stamp i key)) fun _ _ h'' => .pure h''

theorem comments_tracked (cs : List Go.Comment) (h : d.Tracked k) :
    Ends (comments set cs) d (Draft.Tracked k) := by
  induction cs generalizing d with
  | nil => exact .pure h
  | cons c cs ih =>
    refine .bind (Draft.Tracked.leafClosed.expectedLeaf h)
      ((Build.expectedLeaf_yields.and (Draft.Tracked.leafClosed.expectedLeaf h).yields).mono ?_)
    rintro x d' ⟨hmade, h'⟩
    cases hmade with
    | none => exact ih h'
    | some n stop hn =>
      have hnode : (d.add n).tree.node d.tree.size = n := Tree.node_push_size
      obtain ⟨range, text, htoken, -⟩ := hn.token_eq
      have hleaf : ((d.add n).tree.node d.tree.size).IsComment := by
        rw [hnode]
        refine ⟨by simp [Node.isComment, htoken], ?_⟩
        rw [hn.offset_eq, hn.stop_eq]
        exact hn.offset_lt (by decide)
      have hlt : d.tree.size < (d.add n).tree.size := by simp [Draft.add]
      exact .seq (.of_ok rfl (h'.push hlt hleaf)) fun _ _ h'' => ih h''

end Build

/-! ## Steps on a draft and a list of children -/

namespace Fill

theorem missing_tracked (h : f.draft.Tracked k) :
    Ends (missing set offset stop) f fun f' => f'.draft.Tracked k :=
  Draft.Tracked.leafClosed.missing h

/-- The cursor passes the comments that a gap looks at, each once. -/
theorem placeComments_tracked (cs : List NodeId) (h : f.draft.Tracked cs.length) :
    Ends (placeComments set stop cs offset) f fun f' => f'.draft.Tracked 0 := by
  induction cs generalizing f offset with
  | nil => exact .pure h
  | cons c cs ih =>
    have hzero {f : Filling} {k : Nat} (h : f.draft.Tracked k) : f.draft.Tracked 0 :=
      h.of_le (Nat.zero_le _)
    refine .get ?_
    simp only
    split
    · split
      · exact .pure (hzero h)
      · refine .bind ((missing_tracked h).mono fun _ => hzero)
          ((missing_tracked h).yields.mono fun _ f₁ h₁ => ?_)
        exact .of_bind rfl (.of_bind rfl (ih h₁.advance))
    · exact .of_bind rfl (ih h.advance)

theorem gap_tracked (h : f.draft.Tracked 0) :
    Ends (gap set offset stop) f fun f' => f'.draft.Tracked 0 := by
  have hback := h.rewind offset
  refine .of_bind rfl (.get (.seq (placeComments_tracked _ ?_) fun _ _ h₁ => missing_tracked h₁))
  rw [List.length_drop, Array.length_toList]
  exact hback

theorem append_tracked {x : Option NodeId} (h : f.draft.Tracked 0) :
    Ends (append set x) f fun f' => f'.draft.Tracked 0 := by
  cases x with
  | none => exact .pure h
  | some i =>
    refine .get ?_
    split
    · exact h
    · simp only
      split
      · split
        · exact .throw h
        · exact h
      · exact .get (.seq (gap_tracked h) fun _ _ h₁ => h₁)

theorem appendAll_tracked (xs : List (Option NodeId)) (h : f.draft.Tracked 0) :
    Ends (appendAll set xs) f fun f' => f'.draft.Tracked 0 := by
  induction xs generalizing f with
  | nil => exact .pure h
  | cons x xs ih => exact .seq (append_tracked h) fun _ _ h₁ => ih h₁

end Fill

/-! ## Operations -/

/-- An operation leaves the comments what they are, and the cursor among them, however it ends. -/
theorem Operation.after_tracked {op : Operation} (h : d.Tracked 0) : (op.after set d).Tracked 0 := by
  change Ends (op.step set) d (Draft.Tracked 0)
  have hleaf : Draft.LeafClosed set (Draft.Tracked 0) := Draft.Tracked.leafClosed
  cases op with
  | leaf | token => exact .map (hleaf.leaf h)
  | expectedLeaf | expectedToken => exact .map (hleaf.expectedLeaf h)
  | lexeme => exact .map (hleaf.lexeme h)
  | comments cs => exact Build.comments_tracked cs h
  | node => exact .map (Build.node_tracked h)
  | native => exact .map (.get (Build.node_tracked h))
  | number i key => exact h.stamp i key
  | enter | leave => exact h.of_eq rfl rfl rfl
  | append => exact Fill.onto_ends (Fill.append_tracked h)
  | appendAll _ xs => exact Fill.onto_ends (Fill.appendAll_tracked xs h)
  | gap => exact Fill.onto_ends (Fill.gap_tracked h)
  | missing => exact Fill.onto_ends (Fill.missing_tracked h)
  | endMark =>
    refine Fill.onto_ends (.bind (Fill.build_ends (hleaf.leaf h)) ?_)
    exact (Fill.build_ends (hleaf.leaf h)).yields.mono fun _ _ h₁ => Fill.append_tracked h₁

/-- In any draft that operations lead to, the cursor is among the comments. -/
theorem Draft.Tracked.run {ops : List Operation} (h : d.Tracked 0)
    (hrun : runOperations? set ops d = some d') : d'.Tracked 0 :=
  runOperations?_keeps (fun h _ => Operation.after_tracked h) h hrun

end LosslessGo
