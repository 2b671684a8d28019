import LosslessGo.Proofs.Draft.Tracked
import LosslessGo.Proofs.Draft.Expected
import LosslessGo.Proofs.Draft.Gap

/-!
# Gaps do not depend on the cursor

The cursor spares a gap the comments that earlier gaps left behind. Where comments are in source order,
a gap goes just as if it looked at all of them from the first on, wherever earlier gaps have left the
cursor: those that it passes over start before the gap.

* `Fill.gap_eq_scan`: a gap from any cursor is a scan of all comments.
* `Fill.gap_places`: which comments a gap gathers.
* `Draft.gap_of_operations`: both, in whatever draft operations lead to.
-/

namespace LosslessGo

variable {set : Setting} {d : Draft} {f f' f'' : Filling} {a b offset stop k : Nat}
  {children : Array NodeId} {cs cs' : List NodeId} {c : NodeId}

/-- The comments are in source order and do not overlap. -/
def Draft.CommentsOrdered (d : Draft) : Prop :=
  d.comments.toList.Pairwise fun c c' => (d.tree.node c).stop ≤ (d.tree.node c').offset

instance (d : Draft) : Decidable d.CommentsOrdered := inferInstanceAs (Decidable (List.Pairwise ..))

/-- The nodes `cs` are the comments that `node` gives. -/
def Tree.ShowsComments (t : Tree) (node : NodeId → Node) (cs : List NodeId) : Prop :=
  ∀ c ∈ cs, c < t.size ∧ t.node c = node c ∧ (node c).IsComment

theorem Tree.ShowsComments.grows {t t' : Tree} {node : NodeId → Node}
    (h : t.ShowsComments node cs) (hg : t.Grows t') : t'.ShowsComments node cs := by
  intro c hc
  obtain ⟨hlt, hnode, hcomment⟩ := h c hc
  exact ⟨hlt.trans_le hg.size_le, (hg.node_eq c hlt).trans hnode, hcomment⟩

theorem Draft.Tracked.showsComments (h : d.Tracked k) :
    d.tree.ShowsComments d.tree.node d.comments.toList :=
  fun c hc => ⟨h.lt_size c hc, rfl, h.isComment c hc⟩

/-- The draft with another cursor. -/
def Draft.withCursor (d : Draft) (k : Nat) : Draft := { d with cursor := k }

/-! ## Where a gap starts to look -/

/-- The last comment that is passed over starts before the gap. -/
theorem Draft.offset_lt_of_commentsBefore (h : d.commentsBefore offset k = c + 1) :
    (d.tree.node (d.comments.getD c 0)).offset < offset := by
  fun_induction d.commentsBefore offset k with
  | case1 => cases h
  | case2 k hle ih => exact ih h
  | case3 k hlt =>
    cases h
    omega

/-- All comments that are passed over start before the gap. -/
theorem Draft.offset_lt_of_mem_take (h : d.Tracked 0) (hordered : d.CommentsOrdered)
    (hc : c ∈ d.comments.toList.take (d.commentsBefore offset d.cursor)) :
    (d.tree.node c).offset < offset := by
  obtain ⟨i, hi, rfl⟩ := List.mem_take_iff_getElem.mp hc
  obtain ⟨hlt, hi⟩ := Nat.lt_min.mp hi
  obtain ⟨last, hlast⟩ := Nat.exists_eq_succ_of_ne_zero (Nat.ne_zero_of_lt hlt)
  have hlength : last < d.comments.toList.length := by
    have := d.commentsBefore_le offset d.cursor
    have := h.cursor_add_le
    rw [Array.length_toList]
    omega
  have hbefore : (d.tree.node d.comments.toList[last]).offset < offset := by
    have hget : d.comments.getD last 0 = d.comments.toList[last] := by
      rw [Array.getD_eq_getD_getElem?, Array.getElem_toList, Array.getElem?_eq_getElem, Option.getD_some]
    rw [← hget]
    exact Draft.offset_lt_of_commentsBefore hlast
  rcases Nat.lt_or_eq_of_le (show i ≤ last by omega) with hil | rfl
  · have hcomment := h.isComment _ (List.getElem_mem hi)
    have hstop := List.pairwise_iff_getElem.mp hordered i last hi hlength hil
    exact (hcomment.offset_lt.trans_le hstop).trans hbefore
  · exact hbefore

namespace Fill

/-- Comments that start before a gap are passed over. -/
theorem placeComments_append (h : ∀ c ∈ cs, (d.tree.node c).offset < offset) :
    placeComments set stop (cs ++ cs') offset ⟨d, children⟩ =
      placeComments set stop cs' offset ⟨d.withCursor (d.cursor + cs.length), children⟩ := by
  induction cs generalizing d with
  | nil => rfl
  | cons c cs ih =>
    have hc : ¬offset ≤ (d.tree.node c).offset := Nat.not_le.mpr (h c List.mem_cons_self)
    have hstep : placeComments set stop (c :: cs ++ cs') offset ⟨d, children⟩ =
        placeComments set stop (cs ++ cs') offset ⟨d.withCursor (d.cursor + 1), children⟩ := by
      rw [List.cons_append, placeComments]
      change (if offset ≤ (d.tree.node c).offset then _ else _ : Fill Nat) ⟨d, children⟩ = _
      rw [if_neg hc]
      rfl
    have hcursor : (d.withCursor (d.cursor + 1)).withCursor (d.cursor + 1 + cs.length) =
        d.withCursor (d.cursor + (c :: cs).length) := by
      rw [List.length_cons, Nat.add_comm cs.length, Nat.add_assoc]
      rfl
    rw [← hcursor]
    exact hstep.trans (ih fun c hc => h c (List.mem_cons_of_mem _ hc))

/-- A gap, as a scan of all comments. -/
def scan (set : Setting) (offset stop : Nat) (cs : List NodeId) : Fill Unit := do
  let reached ← placeComments set stop cs offset
  missing set reached stop

/-- From any cursor, a gap goes as if it looked at all comments from the first on. -/
theorem gap_eq_scan (h : d.Tracked 0) (hordered : d.CommentsOrdered) :
    gap set offset stop ⟨d, children⟩ =
      scan set offset stop d.comments.toList ⟨d.withCursor 0, children⟩ := by
  set k := d.commentsBefore offset d.cursor with hk
  have hgap : gap set offset stop ⟨d, children⟩ =
      scan set offset stop (d.comments.toList.drop k) ⟨d.withCursor k, children⟩ := rfl
  have hlength : (d.comments.toList.take k).length = k := by
    have := d.commentsBefore_le offset d.cursor
    have := h.cursor_add_le
    rw [List.length_take, Array.length_toList]
    omega
  have hplace : placeComments set stop d.comments.toList offset ⟨d.withCursor 0, children⟩ =
      placeComments set stop (d.comments.toList.drop k) offset ⟨d.withCursor k, children⟩ := by
    have hbefore : ∀ c ∈ d.comments.toList.take k, (d.tree.node c).offset < offset :=
      fun c hc => Draft.offset_lt_of_mem_take h hordered hc
    have hskip : placeComments set stop (d.comments.toList.take k ++ d.comments.toList.drop k) offset
        ⟨d.withCursor 0, children⟩ = _ := placeComments_append hbefore
    have hcursor : (d.withCursor 0).withCursor ((d.withCursor 0).cursor + k) = d.withCursor k :=
      congrArg d.withCursor (Nat.zero_add k)
    rwa [List.take_append_drop, hlength, hcursor] at hskip
  rw [hgap]
  simp only [scan, Bind.bind, EStateM.bind, hplace]

end Fill

/-! ## What a gap gathers -/

namespace Filling

/-- The comments `cs` are gathered in this order, with new tokens among them. -/
structure Places (f : Filling) (cs : List NodeId) (f' : Filling) : Prop where
  grows : f.draft.Grows f'.draft
  gathered : ∃ xs, f'.children.toList = f.children.toList ++ xs ∧
    (∀ x ∈ xs, x < f'.draft.tree.size) ∧ xs.filter (fun x => (f'.draft.tree.node x).isComment) = cs

namespace Places

theorem refl (f : Filling) : f.Places [] f := ⟨.refl _, [], by simp, nofun, rfl⟩

theorem trans (h : f.Places cs f') (h' : f'.Places cs' f'') : f.Places (cs ++ cs') f'' := by
  obtain ⟨hgrows, xs, hxs, hlt, rfl⟩ := h
  obtain ⟨hgrows', ys, hys, hlt', rfl⟩ := h'
  refine ⟨hgrows.trans hgrows', xs ++ ys, ?_, fun x hx => ?_, ?_⟩
  · rw [hys, hxs, List.append_assoc]
  · rcases List.mem_append.mp hx with hx | hx
    · exact (hlt x hx).trans_le hgrows'.tree.size_le
    · exact hlt' x hx
  · rw [List.filter_append]
    congr 1
    exact List.filter_congr fun x hx => by rw [hgrows'.tree.node_eq x (hlt x hx)]

/-- A comment is gathered. -/
theorem push (hlt : c < f.draft.tree.size) (hc : (f.draft.tree.node c).isComment = true) :
    f.Places [c] ⟨f.draft, f.children.push c⟩ :=
  ⟨.refl _, [c], by simp, by simpa using hlt, by simp [hc]⟩

/-- A new token is gathered. -/
theorem push_leaf (f : Filling) {n : Node} (hn : n.isComment = false) :
    f.Places [] ⟨f.draft.add n, f.children.push f.draft.tree.size⟩ := by
  have hnode : (f.draft.add n).tree.node f.draft.tree.size = n := Tree.node_push_size
  refine ⟨.add _ n, [f.draft.tree.size], by simp, by simp [Draft.add], ?_⟩
  simp [hnode, hn]

theorem cursor (f : Filling) (k : Nat) : f.Places [] ⟨f.draft.withCursor k, f.children⟩ :=
  ⟨⟨.refl _, rfl⟩, [], by simp, nofun, rfl⟩

end Places

end Filling

open Filling

/-- A token of the code is no comment. -/
theorem Node.IsLeafOver.not_isComment {n : Node} {kind : TokenKind} {type : NodeType} {fields : Fields}
    (h : n.IsLeafOver set offset stop kind type fields) (hkind : kind.isListed = true) :
    n.isComment = false := by
  obtain ⟨range, text, htoken, -⟩ := h.token_eq
  have hne : kind ≠ .comment := by
    rintro rfl
    cases hkind
  simp [isComment, htoken, hne]

namespace Fill

theorem token_places {label : String} {kind : TokenKind} (hkind : kind.isListed = true) :
    Yields (build (Build.token set offset stop label kind) >>= pushSome) f fun _ f' =>
      f.Places [] f' := by
  refine .bind ((build_yields Build.leaf_yields).mono ?_)
  rintro x ⟨d, cs⟩ ⟨rfl, ⟨rfl, rfl, -⟩ | ⟨n, hn, rfl, rfl⟩⟩
  · exact .pure (.refl f)
  · exact push_yields (.push_leaf f (hn.not_isComment hkind))

theorem pieces_places : Yields (pieces set (gapPieces set.source a b)) f fun _ f' => f.Places [] f' := by
  fun_induction gapPieces set.source a b generalizing f with
  | case1 a i hi m hm =>
    rename_i ih
    simp only [pieces, ← bind_assoc]
    exact .bind ((token_places (isListed_of_missingAt? hm)).mono fun _ _ h =>
      ih.mono fun _ _ h' => h.trans h')
  | case2 a i hi =>
    simp only [pieces]
    split
    · exact .bind .throw
    · simp only [← bind_assoc]
      exact .bind ((token_places rfl).mono fun _ _ h => .pure h)
  | case3 => exact .pure (.refl f)

/-- No comments stand in what is missing. -/
theorem missing_places : Yields (missing set offset stop) f fun _ f' => f.Places [] f' := by
  unfold missing
  split
  · split
    · exact .throw
    · exact .pure (.refl f)
  · exact pieces_places

/-- Of comments in order, those that lie in the gap are gathered. They are the ones between those that
start before it and the first that stops behind it: a comment behind that one stops later still. -/
theorem placeComments_places {node : NodeId → Node} (hcs : f.draft.tree.ShowsComments node cs)
    (hordered : cs.Pairwise fun c c' => (node c).stop ≤ (node c').offset)
    (hstart : ∀ c ∈ cs, offset ≤ (node c).offset ↔ a ≤ (node c).offset) :
    Yields (placeComments set b cs offset) f fun _ f' =>
      f.Places (cs.filter fun c => a ≤ (node c).offset ∧ (node c).stop ≤ b) f' := by
  induction cs generalizing f offset with
  | nil => exact .pure (.refl f)
  | cons c cs ih =>
    obtain ⟨⟨hlt, hnode, hcomment⟩, hrest⟩ := List.forall_mem_cons.mp hcs
    obtain ⟨hbehind, hordered⟩ := List.pairwise_cons.mp hordered
    have hc := hstart c List.mem_cons_self
    unfold placeComments
    refine .bind (.get ?_)
    simp only [hnode]
    split
    next hle =>
      split
      next hstop =>
        rw [List.filter_eq_nil_iff.mpr]
        · exact .pure (.refl f)
        intro c' hc' hin
        have hle' : (node c').stop ≤ b := (of_decide_eq_true hin).2
        rcases List.mem_cons.mp hc' with rfl | hc'
        · omega
        · have := hbehind c' hc'
          have := (hrest c' hc').2.2.offset_lt
          omega
      next hstop =>
        have hin : a ≤ (node c).offset ∧ (node c).stop ≤ b := ⟨hc.mp hle, Nat.le_of_not_lt hstop⟩
        rw [List.filter_cons_of_pos (by simpa using hin)]
        refine .bind (missing_places.mono fun _ f₁ h₁ => .bind (push_yields (.bind (advance_yields ?_))))
        have hpush : f₁.Places [c] ⟨f₁.draft, f₁.children.push c⟩ := by
          refine .push (hlt.trans_le h₁.grows.tree.size_le) ?_
          rw [h₁.grows.tree.node_eq c hlt, hnode]
          exact hcomment.isComment
        have h₂ := (h₁.trans hpush).trans (.cursor _ (f₁.draft.cursor + 1))
        refine (ih (.grows hrest h₂.grows.tree) hordered fun c' hc' => ?_).mono
          fun _ _ h₃ => h₂.trans h₃
        have := hbehind c' hc'
        have := hcomment.offset_lt
        omega
    next hlt' =>
      have hout : ¬(a ≤ (node c).offset ∧ (node c).stop ≤ b) := fun h => hlt' (hc.mpr h.1)
      rw [List.filter_cons_of_neg (by simpa using hout)]
      have h₁ := Places.cursor f (f.draft.cursor + 1)
      refine .bind (advance_yields ?_)
      refine (ih (.grows hrest h₁.grows.tree) hordered fun c' hc' => ?_).mono
        fun _ _ h₂ => h₁.trans h₂
      exact hstart c' (List.mem_cons_of_mem _ hc')

theorem scan_places {node : NodeId → Node} (hcs : f.draft.tree.ShowsComments node cs)
    (hordered : cs.Pairwise fun c c' => (node c).stop ≤ (node c').offset) :
    Yields (scan set a b cs) f fun _ f' =>
      f.Places (cs.filter fun c => a ≤ (node c).offset ∧ (node c).stop ≤ b) f' := by
  refine .bind ((placeComments_places hcs hordered fun _ _ => .rfl).mono fun _ f₁ h₁ => ?_)
  refine missing_places.mono fun _ f₂ h₂ => ?_
  have h := h₁.trans h₂
  rwa [List.append_nil] at h

/-- A gap gathers the comments that lie in it, in source order. -/
theorem gap_places (h : d.Tracked 0) (hordered : d.CommentsOrdered) :
    Yields (gap set a b) ⟨d, children⟩ fun _ f' =>
      Places ⟨d, children⟩
        (d.comments.toList.filter fun c => a ≤ (d.tree.node c).offset ∧ (d.tree.node c).stop ≤ b) f' := by
  intro u f' hgap
  rw [gap_eq_scan h hordered] at hgap
  exact (Places.cursor ⟨d, children⟩ 0).trans (scan_places h.showsComments hordered u f' hgap)

end Fill

/-! ## Any operations before -/

/-- In order, comments stand once in the list. -/
theorem Draft.CommentsOrdered.nodup (h : d.Tracked 0) (hordered : d.CommentsOrdered) :
    d.comments.toList.Nodup := by
  refine List.Pairwise.imp_of_mem (fun {c c'} hc hc' hle => ?_) hordered
  rintro rfl
  have := (h.isComment c hc).offset_lt
  omega

/-- Whatever was done to a draft before, gaps in any order among it, a gap goes as if the cursor were at
the first comment: the same comes out, the same is added, and the same children are gathered. Where it
succeeds, the comments that it gathers are those that lie in it, each once and in source order. -/
theorem Draft.gap_of_operations {ops : List Operation} (hrun : runOperations? set ops .empty = some d)
    (hordered : d.CommentsOrdered) (a b : Nat) (children : Array NodeId) :
    Fill.gap set a b ⟨d, children⟩ = Fill.gap set a b ⟨d.withCursor 0, children⟩ ∧
      ∀ f, Fill.gap set a b ⟨d, children⟩ = .ok () f →
        ∃ gathered, f.children.toList = children.toList ++ gathered ∧
          gathered.filter (fun i => (f.draft.tree.node i).isComment) =
            d.comments.toList.filter (fun c =>
              a ≤ (d.tree.node c).offset ∧ (d.tree.node c).stop ≤ b) ∧
          (gathered.filter fun i => (f.draft.tree.node i).isComment).Nodup := by
  have hd : d.Tracked 0 := Draft.Tracked.empty.run hrun
  have hzero : (d.withCursor 0).Tracked 0 := ⟨Nat.zero_le _, hd.lt_size, hd.isComment⟩
  refine ⟨?_, fun f hgap => ?_⟩
  · rw [Fill.gap_eq_scan hd hordered, Fill.gap_eq_scan hzero hordered]
    rfl
  · obtain ⟨-, gathered, hchildren, -, hcomments⟩ := Fill.gap_places hd hordered () f hgap
    refine ⟨gathered, hchildren, hcomments, ?_⟩
    rw [hcomments]
    exact (hordered.nodup hd).filter _

/-- A file in lenient mode with three comments. -/
def betweenSetting : Setting := ⟨.ofText "b.go" "a /*1*/ , /*2*/ b /*3*/ c", false⟩

/-- Operations on `betweenSetting` that leave the cursor behind the last comment. -/
def betweenOperations : List Operation :=
  [.comments [⟨2, "/*1*/"⟩, ⟨10, "/*2*/"⟩, ⟨18, "/*3*/"⟩], .gap [] 1 16, .gap [] 17 24]

/-- A gap that starts and ends in a comment, and is visited late. -/
theorem Draft.gap_of_operations_between :
    ∃ d, runOperations? betweenSetting betweenOperations .empty = some d ∧ d.CommentsOrdered ∧
      d.cursor = 3 ∧
      Fill.gap betweenSetting 4 20 ⟨d, #[]⟩ = Fill.gap betweenSetting 4 20 ⟨d.withCursor 0, #[]⟩ ∧
      ∃ f, Fill.gap betweenSetting 4 20 ⟨d, #[]⟩ = .ok () f ∧
        f.children.toList.filter (fun i => (f.draft.tree.node i).isComment) = [1] := by
  have hrun : (runOperations? betweenSetting betweenOperations .empty).any (fun d =>
      d.CommentsOrdered ∧ d.cursor = 3 ∧
        d.comments.toList.filter (fun c =>
          4 ≤ (d.tree.node c).offset ∧ (d.tree.node c).stop ≤ 20) = [1] ∧
        attains (Fill.gap betweenSetting 4 20) ⟨d, #[]⟩ (fun _ _ => true) = true) = true := by
    decide +kernel
  obtain ⟨d, hd, hfacts⟩ := (Option.any_eq_true ..).mp hrun
  obtain ⟨hordered, hcursor, hinside, hgap⟩ := of_decide_eq_true hfacts
  obtain ⟨u, f, hf, -⟩ := exists_of_attains hgap
  obtain ⟨hsame, hgathers⟩ := Draft.gap_of_operations hd hordered 4 20 #[]
  obtain ⟨gathered, hchildren, hcomments, -⟩ := hgathers f hf
  refine ⟨d, hd, hordered, hcursor, hsame, f, hf, ?_⟩
  rw [hchildren, Array.toList_empty, List.nil_append, hcomments, hinside]

end LosslessGo
