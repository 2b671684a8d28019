import LosslessGo.Proofs.Draft.Sound
import LosslessGo.Proofs.Draft.Yields

/-!
# Gaps lose nothing

Where the text is accounted for up to an offset, filling the gap from there accounts for the text up
to its end, and leaves the children gathered before as they were.

* `Fill.missing_yields`: a stretch of text without comments.
* `Fill.gap_yields`: the comments of a gap and the text between them.
* `Fill.append_yields`, `Fill.appendFrom_yields`: a child behind the gap before it.
-/

namespace LosslessGo

variable {set : Setting} {start : Option Nat} {f f' f'' : Filling} {a b offset stop : Nat}

/-! ## Growing fillings -/

namespace Filling

/-- What is in `f` is in `f'` as it was. -/
structure Extends (f f' : Filling) : Prop where
  draft : f.draft.Grows f'.draft
  children : f.children.toList <+: f'.children.toList

namespace Extends

theorem refl (f : Filling) : Extends f f := ⟨.refl _, List.prefix_refl _⟩

theorem trans (h : Extends f f') (h' : Extends f' f'') : Extends f f'' :=
  ⟨h.draft.trans h'.draft, h.children.trans h'.children⟩

theorem push (f : Filling) (i : NodeId) : Extends f ⟨f.draft, f.children.push i⟩ :=
  ⟨.refl _, by simp⟩

theorem ne_empty (h : Extends f f') (hf : f.children ≠ #[]) : f'.children ≠ #[] := by
  intro he
  have := h.children
  rw [he] at this
  exact hf (by simpa using this)

end Extends

/-- A word of a gap may reach past the end of the gap. -/
theorem Kept.reaches_cut (h : f.Kept set start) {n : Node} (hn : f.nodes.getLast? = some n)
    (hcut : n.CutAt set.source b) : f.Reaches set start b := by
  refine ⟨h, ?_, fun he => by simp [he] at hn⟩
  rintro _ hm
  obtain rfl := Option.some.inj (hn.symm.trans hm)
  exact ⟨.of_le hcut.lt_stop.le, fun _ => .inr hcut⟩

end Filling

theorem Draft.Grows.add (d : Draft) (n : Node) : d.Grows (d.add n) := ⟨.push d.tree n, rfl⟩

theorem Node.IsLeafOver.isLeafIn {n : Node} {kind : TokenKind} {type : NodeType} {fields : Fields}
    (h : n.IsLeafOver set offset stop kind type fields)
    (hk : kind = .endOfFile → stop = set.size) : n.IsLeafIn set := by
  refine ⟨h.isLeaf, h.children_eq, ?_, ?_, fun he => ?_⟩
  · rw [h.offset_eq, h.stop_eq]
    exact h.offset_le
  · rw [h.stop_eq]
    exact h.stop_le
  · rw [h.offset_eq, h.stop_eq] at he
    rw [h.stop_eq]
    by_cases hend : kind = .endOfFile
    · exact hk hend
    · have := h.offset_lt hend
      omega

/-- A leaf keeps a draft sound. -/
theorem Draft.Sound.add_leaf {d : Draft} (h : d.Sound set) {n : Node} (hn : n.IsLeafIn set) :
    (d.add n).Sound set :=
  ⟨h.tree.push (.inl hn), fun c hc => (h.comments c hc).trans (by simp [Draft.add])⟩

/-- A token of the code is not the end of the file. -/
theorem TokenKind.ne_endOfFile {kind : TokenKind} (h : kind.isListed = true) : kind ≠ .endOfFile := by
  rintro rfl
  cases h

namespace Fill

open Filling

/-! ## Parts of steps -/

theorem build_yields {α : Type} {x : Build α} {Q : α → Draft → Prop} (h : Yields x f.draft Q) :
    Yields (build x) f fun a f' => f'.children = f.children ∧ Q a f'.draft := by
  obtain ⟨d, cs⟩ := f
  intro a f' hx
  simp only [build] at hx
  split at hx
  · cases hx
    exact ⟨rfl, h _ _ ‹_›⟩
  · cases hx

theorem push_yields {i : NodeId} {Q : Unit → Filling → Prop}
    (h : Q () ⟨f.draft, f.children.push i⟩) : Yields (push i) f Q := by
  rintro _ _ ⟨⟩
  exact h

/-- The draft with other places of comments. -/
theorem advance_yields {Q : Unit → Filling → Prop}
    (h : Q () ⟨{ f.draft with cursor := f.draft.cursor + 1 }, f.children⟩) : Yields advance f Q := by
  rintro _ _ ⟨⟩
  exact h

theorem rewind_yields {Q : Unit → Filling → Prop}
    (h : Q () ⟨{ f.draft with cursor := f.draft.commentsBefore offset f.draft.cursor }, f.children⟩) :
    Yields (rewind offset) f Q := by
  rintro _ _ ⟨⟩
  exact h

/-- What accounts for text does not depend on how far comments have been placed. -/
theorem reaches_cursor (h : f.Reaches set start b) (k : Nat) :
    (Filling.mk { f.draft with cursor := k } f.children).Reaches set start b ∧
      f.Extends ⟨{ f.draft with cursor := k }, f.children⟩ :=
  ⟨h.grows ⟨.refl _, rfl⟩ ⟨h.sound.tree, h.sound.comments⟩, ⟨.refl _, rfl⟩, List.prefix_refl _⟩

/-! ## Tokens -/

/-- The last child stands over the text from `offset` to `stop`. -/
def EndsWith (f : Filling) (offset stop : Nat) : Prop :=
  ∃ n, f.nodes.getLast? = some n ∧ n.isLeaf = true ∧ n.offset = offset ∧ n.stop = stop

/-- A token is gathered where text is accounted for. -/
theorem token_yields (label : String) {kind : TokenKind} (hk : kind ≠ .endOfFile)
    (h : f.Reaches set start offset) (hlt : offset < stop) :
    Yields (build (Build.token set offset stop label kind) >>= pushSome) f fun _ f' =>
      f.Extends f' ∧ f'.Reaches set start stop ∧ EndsWith f' offset stop := by
  refine .bind ((build_yields Build.leaf_yields).mono ?_)
  rintro x ⟨d', cs⟩ ⟨rfl, ⟨-, -, he, -⟩ | ⟨n, hn, rfl, rfl⟩⟩
  · omega
  have hg := Draft.Grows.add f.draft n
  have hnode : (f.draft.add n).tree.node f.draft.tree.size = n := Tree.node_push_size
  have hr := h.grows hg (h.sound.add_leaf (hn.isLeafIn fun e => absurd e hk))
  have hp := hr.push (i := f.draft.tree.size) (by simp [Draft.add]) (by
    rw [hnode]
    exact hn.offset_eq)
  rw [hnode, hn.stop_eq] at hp
  refine push_yields ⟨⟨hg, by simp⟩, hp, n, ?_, hn.isLeaf, hn.offset_eq, hn.stop_eq⟩
  simp [Filling.nodes, hnode]

theorem isListed_of_missingAt? {source : String} {i : Nat} {m : MissingToken}
    (h : missingAt? source i = some m) : m.kind.isListed = true := by
  obtain ⟨hb, -⟩ := Option.filter_eq_some_iff.mp h
  obtain ⟨b, -, hb⟩ := Option.bind_eq_some_iff.mp hb
  have hm : m ∈ missingTokens := List.mem_of_find?_eq_some hb
  have hall : ∀ m ∈ missingTokens, m.kind.isListed = true := by decide
  exact hall m hm

theorem gapPieces_of_le {source : String} (h : b ≤ a) : gapPieces source a b = [] := by
  have := Text.le_skipBlanks source a b
  rw [gapPieces, if_neg (by omega)]

/-- The pieces of a gap account for its text. -/
theorem pieces_yields (h : f.Reaches set start a) (hab : a ≤ b) :
    Yields (pieces set (gapPieces set.source a b)) f fun _ f' =>
      f.Extends f' ∧ f'.Reaches set start b := by
  fun_induction gapPieces set.source a b generalizing f with
  | case1 a i hi m hm =>
    rename_i ih
    have hr : f.Reaches set start i :=
      h.skip (Text.le_skipBlanks _ _ _) (Text.blank_skipBlanks _ _ _)
    have hlen := missingAt?_length hm
    have hlt : i < i + m.text.utf8ByteSize := by omega
    have htoken := token_yields m.label (TokenKind.ne_endOfFile (isListed_of_missingAt? hm)) hr hlt
    simp only [pieces, ← bind_assoc]
    refine .bind (htoken.mono ?_)
    rintro - f₁ ⟨hx, hr₁, n, hlast, hleaf, hoff, hstop⟩
    by_cases hle : i + m.text.utf8ByteSize ≤ b
    · exact (ih hr₁ hle).mono fun _ _ h₂ => ⟨hx.trans h₂.1, h₂.2⟩
    · rw [gapPieces_of_le (by omega)]
      refine .pure ⟨hx, hr₁.toKept.reaches_cut hlast ⟨hleaf, ⟨m, ?_, ?_⟩, ?_, ?_⟩⟩
      · rw [hoff]
        exact hm
      · rw [hoff, hstop]
      · omega
      · omega
  | case2 a i hi =>
    rename_i hm
    have hr : f.Reaches set start i :=
      h.skip (Text.le_skipBlanks _ _ _) (Text.blank_skipBlanks _ _ _)
    have hother : TokenKind.other ≠ .endOfFile := by decide
    have htoken := token_yields "" hother hr hi
    simp only [pieces]
    split
    · exact .bind .throw
    · simp only [← bind_assoc]
      exact .bind (htoken.mono fun _ _ h₁ => .pure ⟨h₁.1, h₁.2.1⟩)
  | case3 a i =>
    rename_i hi
    have hle := Text.skipBlanks_le (s := set.source) hab
    have hblank := Text.blank_skipBlanks set.source a b
    rw [show Text.skipBlanks set.source a b = b by omega] at hblank
    exact .pure ⟨.refl f, h.skip hab hblank⟩

/-- A stretch without comments is accounted for. -/
theorem missing_yields (h : f.Reaches set start offset) (hs : stop ≤ set.size) :
    Yields (missing set offset stop) f fun _ f' => f.Extends f' ∧ f'.Reaches set start stop := by
  unfold missing
  split
  · rename_i hout
    split
    · exact .throw
    · exact .pure ⟨.refl f, h.back (by omega) (by simp_all)⟩
  · have hle : offset ≤ stop := by omega
    have hr := h.skip (Text.le_skipBlanks _ _ stop) (Text.blank_skipBlanks _ _ stop)
    refine (pieces_yields hr (Text.le_trimBlanks (Text.skipBlanks_le hle))).mono ?_
    rintro - f' ⟨hx, hr'⟩
    exact ⟨hx, hr'.skip (Text.trimBlanks_le _ _ _) (Text.blank_trimBlanks _ _ _)⟩

/-! ## Comments -/

/-- The comments of a gap, and the text between them and behind the last, are accounted for. -/
theorem placeComments_yields {cs : List NodeId} (h : f.Reaches set start offset)
    (hcs : ∀ c ∈ cs, c < f.draft.tree.size) (hs : stop ≤ set.size) :
    Yields (placeComments set stop cs offset) f fun reached f₁ =>
      Yields (missing set reached stop) f₁ fun _ f' => f.Extends f' ∧ f'.Reaches set start stop := by
  induction cs generalizing f offset with
  | nil => exact .pure (missing_yields h hs)
  | cons c cs ih =>
    have hc : c < f.draft.tree.size := hcs c (by simp)
    have hrest : ∀ c' ∈ cs, c' < f.draft.tree.size := fun c' h' => hcs c' (by simp [h'])
    unfold placeComments
    refine .bind (.get ?_)
    simp only
    split
    · split
      · exact .pure (missing_yields h hs)
      · refine .bind ((missing_yields h (h.sound.tree.bounds hc).1).mono ?_)
        rintro - f₁ ⟨hx₁, hr₁⟩
        have hc₁ := hc.trans_le hx₁.draft.tree.size_le
        have hnode := hx₁.draft.tree.node_eq c hc
        have hr₂ := hr₁.push hc₁ (by rw [hnode])
        rw [hnode] at hr₂
        have hx₂ := Extends.push f₁ c
        refine .bind (push_yields (.bind (advance_yields ?_)))
        obtain ⟨hr₃, hx₃⟩ := reaches_cursor hr₂ (f₁.draft.cursor + 1)
        have hx := hx₁.trans (hx₂.trans hx₃)
        refine (ih hr₃ fun c' h' => (hrest c' h').trans_le hx.draft.tree.size_le).mono ?_
        exact fun _ _ h₄ => h₄.mono fun _ _ h₅ => ⟨hx.trans h₅.1, h₅.2⟩
    · obtain ⟨hr₁, hx₁⟩ := reaches_cursor h (f.draft.cursor + 1)
      refine .bind (advance_yields ((ih hr₁ hrest).mono ?_))
      exact fun _ _ h₂ => h₂.mono fun _ _ h₃ => ⟨hx₁.trans h₃.1, h₃.2⟩

/-- A gap is accounted for. -/
theorem gap_yields (h : f.Reaches set start offset) (hs : stop ≤ set.size) :
    Yields (gap set offset stop) f fun _ f' => f.Extends f' ∧ f'.Reaches set start stop := by
  unfold gap
  obtain ⟨hr, hx⟩ := reaches_cursor h (f.draft.commentsBefore offset f.draft.cursor)
  refine .bind (rewind_yields (.bind (.get (.bind ?_))))
  refine (placeComments_yields hr (fun c hc => ?_) hs).mono fun _ _ h₁ =>
    h₁.mono fun _ _ h₂ => ⟨hx.trans h₂.1, h₂.2⟩
  exact h.sound.comments c (List.mem_of_mem_drop hc)

/-! ## Children -/

/-- A child is gathered last. -/
def Gathered (set : Setting) (start : Option Nat) (f : Filling) (i : NodeId) (f' : Filling) : Prop :=
  f.Extends f' ∧ f'.Kept set start ∧ f'.nodes.getLast? = some (f.draft.tree.node i)

theorem push_gathers (h : f.Reaches set start (f.draft.tree.node i).offset)
    (hi : i < f.draft.tree.size) : Gathered set start f i ⟨f.draft, f.children.push i⟩ :=
  ⟨.push f i, (h.push hi rfl).toKept, by simp [Filling.nodes]⟩

theorem appendFrom_yields {i : NodeId} (h : f.Reaches set start offset)
    (hi : i < f.draft.tree.size) :
    Yields (appendFrom set offset i) f fun _ f' => Gathered set start f i f' := by
  unfold appendFrom
  refine .bind (.get (.bind ((gap_yields h (h.sound.tree.bounds hi).1).mono ?_)))
  rintro - f₁ ⟨hx, hr⟩
  have hnode := hx.draft.tree.node_eq i hi
  obtain ⟨hx', hk, hlast⟩ := push_gathers (by rwa [hnode]) (hi.trans_le hx.draft.tree.size_le)
  exact push_yields ⟨hx.trans hx', hk, hlast.trans (by rw [hnode])⟩

theorem append_yields {x : Option NodeId} (h : f.Kept set start)
    (hx : ∀ i ∈ x, i < f.draft.tree.size) (hstart : start = none ∨ f.children ≠ #[]) :
    Yields (append set x) f fun _ f' =>
      f.Extends f' ∧ f'.Kept set start ∧ ∀ i ∈ x, f'.nodes.getLast? = some (f.draft.tree.node i) := by
  cases x with
  | none => exact .pure ⟨.refl f, h, by simp⟩
  | some i =>
    have hi := hx i rfl
    have hgathered : ∀ f', Gathered set start f i f' → f.Extends f' ∧ f'.Kept set start ∧
        ∀ j ∈ some i, f'.nodes.getLast? = some (f.draft.tree.node j) := by
      rintro f' ⟨hx', hk, hlast⟩
      exact ⟨hx', hk, fun j hj => by cases hj; exact hlast⟩
    refine .bind (.get ?_)
    split
    · rename_i hback
      have he : f.children = #[] := by simpa using hback
      obtain rfl : start = none := hstart.resolve_right (by simp [he])
      have hr := h.reaches_start (a := (f.draft.tree.node i).offset) (by simp [Filling.nodes, he])
        (by simp)
      exact push_yields (hgathered _ (push_gathers hr hi))
    · rename_i last hback
      have hlast : f.children.toList.getLast? = some last := by
        rw [← List.back?_toArray, Array.toArray_toList, hback]
      have hr := h.reaches (n := f.draft.tree.node last) (by simp [Filling.nodes, hlast])
      simp only
      split
      · rename_i hlt
        split
        · exact .bind .throw
        · exact push_yields (hgathered _ (push_gathers (hr.back hlt.le (by simp_all)) hi))
      · exact (appendFrom_yields hr hi).mono fun _ f' => hgathered f'

theorem appendAll_yields {xs : List (Option NodeId)} (h : f.Kept set start)
    (hx : ∀ x ∈ xs, ∀ i ∈ x, i < f.draft.tree.size) (hstart : start = none ∨ f.children ≠ #[]) :
    Yields (appendAll set xs) f fun _ f' => f.Extends f' ∧ f'.Kept set start := by
  induction xs generalizing f with
  | nil => exact .pure ⟨.refl f, h⟩
  | cons x xs ih =>
    refine .bind ((append_yields h (hx x (by simp)) hstart).mono ?_)
    rintro - f₁ ⟨hx₁, hk₁, -⟩
    refine (ih hk₁ (fun y hy i hi => ?_) (hstart.imp_right hx₁.ne_empty)).mono ?_
    · exact (hx y (by simp [hy]) i hi).trans_le hx₁.draft.tree.size_le
    · exact fun _ _ h₂ => ⟨hx₁.trans h₂.1, h₂.2⟩

end Fill

end LosslessGo
