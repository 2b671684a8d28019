import LosslessGo.Proofs.Plan.Extends
import LosslessGo.Proofs.Plan.Shares

/-!
# How the children of a node are laid out

The children of a node are the nodes made for its parts, in the order of the parts, with what the gaps
between them gathered (`Filling.Laid`). `Draft.GapBetween` keeps the run of each gap, so that what stands
in a gap can be told later, in the tree that came out.

* `Fill.gap_appends`: a gap gathers behind the children that are there.
* `Spaced.sublist`, `Spaced.head?_eq`, `Spaced.getLast?_eq`: lists with gaps in between.
* `Fill.appendAll_laid`: children are laid out one after the other.
-/

namespace LosslessGo

open scoped List

variable {set : Setting} {d d' d'' d₁ : Draft} {f f' : Filling} {x : Option NodeId}
  {xs cs gs : List NodeId} {i j : NodeId} {offset stop : Nat}

/-! ## Gaps gather at the end -/

namespace Fill

/-- The children gathered before stay in front. -/
def Appends (f f' : Filling) : Prop := f.children.toList <+: f'.children.toList

theorem Appends.push (f : Filling) (d : Draft) (i : NodeId) : Appends f ⟨d, f.children.push i⟩ := by
  simp [Appends]

theorem token_appends {label : String} {kind : TokenKind} :
    Yields (build (Build.token set offset stop label kind) >>= pushSome) f fun _ f' =>
      Appends f f' := by
  refine .bind ((build_yields Build.leaf_yields).mono ?_)
  rintro x ⟨d, cs⟩ ⟨rfl, ⟨rfl, -⟩ | ⟨n, -, rfl, -⟩⟩
  · exact .pure (List.prefix_refl _)
  · exact push_yields (.push f _ _)

theorem pieces_appends (ps : List GapPiece) : Yields (pieces set ps) f fun _ f' => Appends f f' := by
  induction ps generalizing f with
  | nil => exact .pure (List.prefix_refl _)
  | cons p ps ih =>
    cases p with
    | token offset m =>
      simp only [pieces, ← bind_assoc]
      exact .bind (token_appends.mono fun _ _ h => ih.mono fun _ _ h' => List.IsPrefix.trans h h')
    | rest offset stop =>
      simp only [pieces]
      split
      · exact .bind .throw
      · simp only [← bind_assoc]
        exact .bind (token_appends.mono fun _ _ h => ih.mono fun _ _ h' => List.IsPrefix.trans h h')

theorem missing_appends : Yields (missing set offset stop) f fun _ f' => Appends f f' := by
  unfold missing
  split
  · split
    · exact .throw
    · exact .pure (List.prefix_refl _)
  · exact pieces_appends _

theorem placeComments_appends : Yields (placeComments set stop cs offset) f fun _ f' => Appends f f' := by
  induction cs generalizing f offset with
  | nil => exact .pure (List.prefix_refl _)
  | cons c cs ih =>
    unfold placeComments
    refine .bind (.get ?_)
    simp only
    split
    · split
      · exact .pure (List.prefix_refl _)
      refine .bind (missing_appends.mono fun _ f₁ h₁ => ?_)
      refine .bind (push_yields (.bind (advance_yields (ih.mono fun _ _ h₂ => ?_))))
      exact (List.IsPrefix.trans h₁ (Appends.push f₁ f₁.draft c)).trans h₂
    · exact .bind (advance_yields ih)

theorem gap_appends : Yields (gap set offset stop) f fun _ f' => Appends f f' := by
  refine .bind (rewind_yields (.bind (.get (.bind (placeComments_appends.mono fun _ _ h => ?_)))))
  exact missing_appends.mono fun _ _ h' => List.IsPrefix.trans h h'

end Fill

/-! ## Lists with gaps -/

/-- Between neighbours of one list, the other list has what `gap` says. -/
inductive Spaced {α : Type} (gap : α → α → List α → Prop) : List α → List α → Prop where
  | nil : Spaced gap [] []
  | single (x : α) : Spaced gap [x] [x]
  | next {xs cs gs : List α} {x y : α} : Spaced gap (xs ++ [x]) cs → gap x y gs →
    Spaced gap (xs ++ [x] ++ [y]) (cs ++ gs ++ [y])

namespace Spaced

variable {α : Type} {gap gap' : α → α → List α → Prop} {xs cs : List α}

theorem mono (h : Spaced gap xs cs) (hgap : ∀ x y gs, gap x y gs → gap' x y gs) :
    Spaced gap' xs cs := by
  induction h with
  | nil => exact .nil
  | single x => exact .single x
  | next _ hgs ih => exact .next ih (hgap _ _ _ hgs)

/-- What is known of neighbours tells more of the gaps. -/
theorem imp_chain {R : α → α → Prop} (h : Spaced gap xs cs) (hchain : xs.IsChain R)
    (hgap : ∀ x y gs, R x y → gap x y gs → gap' x y gs) : Spaced gap' xs cs := by
  induction h with
  | nil => exact .nil
  | single x => exact .single x
  | next _ hgs ih =>
    obtain ⟨hinit, -, hlast⟩ := List.isChain_append.mp hchain
    refine .next (ih hinit) (hgap _ _ _ (hlast _ ?_ _ rfl) hgs)
    exact List.getLast?_concat

/-- Where all items of the one list are kept, the gaps are filtered. -/
theorem filter {p : α → Bool} (h : Spaced gap xs cs) (hp : ∀ x ∈ xs, p x = true)
    (hgap : ∀ x y gs, gap x y gs → gap' x y (gs.filter p)) : Spaced gap' xs (cs.filter p) := by
  induction h with
  | nil => exact .nil
  | single x =>
    rw [List.filter_singleton, hp x List.mem_cons_self]
    exact .single x
  | @next xs cs gs x y _ hgs ih =>
    rw [List.filter_append, List.filter_append, List.filter_singleton,
      hp y (List.mem_append_right _ List.mem_cons_self)]
    exact .next (ih fun x hx => hp x (List.mem_append_left _ hx)) (hgap _ _ _ hgs)

/-- Gaps that come to nothing make no difference. -/
theorem flatMap_eq {β : Type} {f : α → List β} (h : Spaced gap xs cs)
    (hgap : ∀ x y gs, gap x y gs → gs.flatMap f = []) : cs.flatMap f = xs.flatMap f := by
  induction h with
  | nil => rfl
  | single x => rfl
  | next _ hgs ih =>
    rw [List.flatMap_append, List.flatMap_append, List.flatMap_append, ih, hgap _ _ _ hgs,
      List.append_nil]

/-- What holds of the two sides of each gap holds of neighbours. -/
theorem isChain {R : α → α → Prop} (h : Spaced gap xs cs) (hgap : ∀ x y gs, gap x y gs → R x y) :
    xs.IsChain R := by
  induction h with
  | nil => exact .nil
  | single x => exact .singleton x
  | next _ hgs ih =>
    refine List.isChain_append.mpr ⟨ih, .singleton _, fun a ha b hb => ?_⟩
    rw [List.getLast?_concat] at ha
    obtain rfl := Option.some_inj.mp ha
    obtain rfl := Option.some_inj.mp hb
    exact hgap _ _ _ hgs

theorem sublist (h : Spaced gap xs cs) : xs <+ cs := by
  induction h with
  | nil => exact .refl _
  | single x => exact .refl _
  | next _ _ ih =>
    exact (ih.trans (List.sublist_append_left _ _)).append (.refl _)

theorem head?_eq (h : Spaced gap xs cs) : cs.head? = xs.head? := by
  induction h with
  | nil => rfl
  | single x => rfl
  | @next xs cs gs x y _ _ ih =>
    rw [List.append_assoc cs, List.head?_append, List.head?_append, ih]
    cases xs <;> rfl

theorem getLast?_eq (h : Spaced gap xs cs) : cs.getLast? = xs.getLast? := by
  cases h with
  | nil => rfl
  | single x => rfl
  | next => rw [List.getLast?_concat, List.getLast?_concat]

theorem eq_nil_iff (h : Spaced gap xs cs) : cs = [] ↔ xs = [] := by
  rw [← List.head?_eq_none_iff, ← List.head?_eq_none_iff, h.head?_eq]

end Spaced

/-! ## Children that are laid out -/

/-- The gap between the nodes `x` and `y` gathered `gs`, in a draft between two others. Only in lenient
mode a node may start before the end of the one before, and nothing is gathered then. -/
def Draft.GapBetween (set : Setting) (d d' : Draft) (x y : NodeId) (gs : List NodeId) : Prop :=
  (gs = [] ∧ set.strict = false) ∨ ∃ f f' : Filling,
    d.Extends f.draft ∧ f'.draft.Extends d' ∧ x < f.draft.tree.size ∧ y < f.draft.tree.size ∧
      (f.draft.tree.node x).stop ≤ (f.draft.tree.node y).offset ∧
      Fill.gap set (f.draft.tree.node x).stop (f.draft.tree.node y).offset f = .ok () f' ∧
      f'.children.toList = f.children.toList ++ gs

theorem Draft.GapBetween.later (h : d.GapBetween set d' i j gs) (hd : d'.Extends d'') :
    d.GapBetween set d'' i j gs := by
  refine h.imp_right ?_
  rintro ⟨f, f', hf, hf', hrest⟩
  exact ⟨f, f', hf, hf'.trans hd, hrest⟩

theorem Draft.GapBetween.start (hd : d.Extends d₁) (h : d₁.GapBetween set d' i j gs) :
    d.GapBetween set d' i j gs := by
  refine h.imp_right ?_
  rintro ⟨f, f', hf, hrest⟩
  exact ⟨f, f', hd.trans hf, hrest⟩

/-- The children are the nodes `xs`, with what the gaps between them gathered since `d`. -/
structure Filling.Laid (set : Setting) (d : Draft) (xs : List NodeId) (f : Filling) : Prop where
  extended : d.Extends f.draft
  hasChildren : f.HasChildren
  spaced : Spaced (Draft.GapBetween set d f.draft) xs f.children.toList

namespace Filling.Laid

theorem empty (d : Draft) : Laid set d [] ⟨d, #[]⟩ := ⟨.refl d, .empty d, .nil⟩

theorem later (h : f.Laid set d xs) (hd : f.draft.Extends d') :
    Laid set d xs ⟨d', f.children⟩ :=
  ⟨h.extended.trans hd, h.hasChildren.extends hd, h.spaced.mono fun _ _ _ hgap => hgap.later hd⟩

/-- The first child is gathered as it is. -/
theorem push_first (h : f.Laid set d xs) (hf : f.children.back? = none)
    (hi : i < f.draft.tree.size) : Laid set d (xs ++ [i]) ⟨f.draft, f.children.push i⟩ := by
  have hnil : f.children.toList = [] := by
    simpa using hf
  obtain rfl : xs = [] := h.spaced.eq_nil_iff.mp hnil
  refine ⟨h.extended, fun c hc => ?_, ?_⟩
  · rw [Array.toList_push, hnil, List.nil_append, List.mem_singleton] at hc
    exact hc ▸ hi
  · rw [Array.toList_push, hnil]
    exact .single i

/-- A child is gathered behind the gap after the last one. -/
theorem push_next (h : f.Laid set d xs) (hj : f.children.back? = some j)
    (hf : f.Continues f') (hchildren : f'.children.toList = f.children.toList ++ gs ++ [i])
    (hgap : d.GapBetween set f'.draft j i gs) : f'.Laid set d (xs ++ [i]) := by
  refine ⟨h.extended.trans hf.draft, hf.hasChildren, ?_⟩
  have hlast : xs.getLast? = some j := by
    rw [← h.spaced.getLast?_eq, Array.getLast?_toList, hj]
  obtain ⟨ys, rfl⟩ := List.getLast?_eq_some_iff.mp hlast
  rw [hchildren]
  exact .next (h.spaced.mono fun _ _ _ hgap => hgap.later hf.draft) hgap

end Filling.Laid

namespace Fill

/-- A child is laid out behind the others. -/
theorem append_laid (h : f.Laid set d xs) (hd : d.HasComments)
    (hx : ∀ i ∈ x, i < f.draft.tree.size) :
    Yields (append set x) f fun _ f' => f.Continues f' ∧ f'.Laid set d (xs ++ x.toList) := by
  have hcontinues : Yields (append set x) f fun _ f' => f.Continues f' :=
    append_continues (h.extended.hasComments hd) h.hasChildren hx
  cases x with
  | none => exact .pure ⟨.refl h.hasChildren, by simpa using h⟩
  | some i =>
    suffices hlaid : Yields (append set (some i)) f fun _ f' =>
        f.Continues f' → f'.Laid set d (xs ++ [i]) from
      (hcontinues.and hlaid).mono fun _ _ ⟨hf, hlaid⟩ => ⟨hf, hlaid hf⟩
    refine .bind (.get ?_)
    split
    next hnone => exact push_yields fun _ => h.push_first hnone (hx i rfl)
    next j hj =>
      simp only
      split
      next hback =>
        split
        next => exact .bind .throw
        next hlenient =>
          refine push_yields fun hf => h.push_next hj hf (by simp : _ = _ ++ [] ++ _) ?_
          exact .inl ⟨rfl, by simpa using hlenient⟩
      next hle =>
        refine .bind (.get (.bind ?_))
        intro u f₁ hgap
        refine push_yields fun hf => ?_
        obtain ⟨gs, hgs⟩ := gap_appends u f₁ hgap
        have hj' : j < f.draft.tree.size := h.hasChildren j (by
          rw [← Array.getLast?_toList] at hj
          exact List.mem_of_getLast? hj)
        refine h.push_next hj hf (by rw [Array.toList_push, hgs]) (.inr ?_)
        exact ⟨f, f₁, h.extended, .refl _, hj', hx i rfl, Nat.le_of_not_lt hle, hgap, hgs.symm⟩

theorem appendAll_laid (ps : List (Option NodeId)) (h : f.Laid set d xs) (hd : d.HasComments)
    (hps : ∀ x ∈ ps, ∀ i ∈ x, i < f.draft.tree.size) :
    Yields (appendAll set ps) f fun _ f' =>
      f.Continues f' ∧ f'.Laid set d (xs ++ ps.reduceOption) := by
  induction ps generalizing f xs with
  | nil => exact .pure ⟨.refl h.hasChildren, by simpa using h⟩
  | cons x ps ih =>
    obtain ⟨hx, hps⟩ := List.forall_mem_cons.mp hps
    refine .bind ((append_laid h hd hx).mono fun _ f₁ ⟨hf₁, h₁⟩ => ?_)
    have hps₁ : ∀ x ∈ ps, ∀ i ∈ x, i < f₁.draft.tree.size :=
      fun x hx i hi => (hps x hx i hi).trans_le hf₁.draft.size_le
    refine (ih h₁ hps₁).mono fun _ f₂ ⟨hf₂, h₂⟩ => ⟨hf₁.trans hf₂, ?_⟩
    have happend : (x :: ps).reduceOption = x.toList ++ ps.reduceOption := by cases x <;> rfl
    rwa [happend, ← List.append_assoc]

end Fill

end LosslessGo
