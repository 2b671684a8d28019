import LosslessGo.Proofs.Draft.Gap
import LosslessGo.Proofs.Tree.Without

/-!
# Two runs side by side

A step is carried out twice, from drafts that differ in hidden fields only, the second time in a mode
that is no stricter. `Along` says that the second run goes along with the first as long as that one
succeeds, by which errors the first may fail, and that in the same mode both fail alike. So one walk
through the steps tells what lenient mode adds to strict mode, which errors there are, and what hidden
fields have no influence on.

* `ConvertError.Arises`: the errors of a mode.
* `Along.bind`, `Along.disagree`: steps in sequence, and errors of strict mode.
* `Build.leaf_along`, `Build.node_along`, `Fill.gap_along`, `Fill.appendAll_along`: the steps.
-/

namespace LosslessGo

open Go (Key Pos)

/-- The errors by which a conversion may fail, in strict mode or not. -/
def ConvertError.Arises (strict : Bool) : ConvertError → Prop
  | invalidToken _ => True
  | emptyToken _ | tokenValue .. | missingToken .. | tokenSequence _ => strict = true
  | invalidOffset _ | unexpectedRoot _ | comment _ => False

/-- The same file in another mode. -/
def Setting.inMode (set : Setting) (strict : Bool) : Setting := { set with strict }

namespace Setting

variable (set : Setting) (strict : Bool)

@[simp] theorem file_inMode : (set.inMode strict).file = set.file := rfl

@[simp] theorem source_inMode : (set.inMode strict).source = set.source := rfl

end Setting

variable {σ α β : Type} {set : Setting} {strict : Bool}

/-- Where step `x` succeeds from `s`, step `y` does from `t`, with the same result, and states that
satisfy `Q`. Where `x` fails, its error is one of the mode of `set`, and `y` fails with it if `strict` is
the same mode. -/
def Along (set : Setting) (strict : Bool) (x : EStateM ConvertError σ α) (s : σ)
    (y : EStateM ConvertError σ α) (t : σ) (Q : α → σ → σ → Prop) : Prop :=
  match x s with
  | .ok a s' => ∃ t', y t = .ok a t' ∧ Q a s' t'
  | .error e _ => e.Arises set.strict ∧ (strict = set.strict → ∃ t', y t = .error e t')

namespace Along

variable {x y : EStateM ConvertError σ α} {f g : α → EStateM ConvertError σ β} {s t : σ}
  {Q R : α → σ → σ → Prop}

theorem pure {a : α} (h : Q a s t) : Along set strict (Pure.pure a) s (Pure.pure a) t Q :=
  ⟨t, rfl, h⟩

theorem mono (h : Along set strict x s y t Q) (hQ : ∀ a s' t', Q a s' t' → R a s' t') :
    Along set strict x s y t R := by
  unfold Along at h ⊢
  split at h
  · obtain ⟨t', hy, hq⟩ := h
    exact ⟨t', hy, hQ _ _ _ hq⟩
  · exact h

theorem bind {Q : β → σ → σ → Prop}
    (h : Along set strict x s y t fun a s' t' => Along set strict (f a) s' (g a) t' Q) :
    Along set strict (x >>= f) s (y >>= g) t Q := by
  simp only [Along, Bind.bind, EStateM.bind] at h ⊢
  cases hx : x s with
  | ok a s' =>
    rw [hx] at h
    obtain ⟨t', hy, hq⟩ := h
    simp only [hy]
    exact hq
  | error e s' =>
    rw [hx] at h
    refine ⟨h.1, fun hmode => ?_⟩
    obtain ⟨t', hy⟩ := h.2 hmode
    exact ⟨t', by simp only [hy]⟩

theorem map {Q : β → σ → σ → Prop} {g : α → β}
    (h : Along set strict x s y t fun a s' t' => Q (g a) s' t') :
    Along set strict (g <$> x) s (g <$> y) t Q := by
  rw [map_eq_pure_bind, map_eq_pure_bind]
  exact .bind (h.mono fun _ _ _ hq => .pure hq)

/-- A step may look at the state. -/
theorem get {f g : σ → EStateM ConvertError σ β} {Q : β → σ → σ → Prop}
    (h : Along set strict (f s) s (g t) t Q) :
    Along set strict (MonadState.get >>= f) s (MonadState.get >>= g) t Q := h

/-- What is known of the first run alone. -/
theorem and_yields (h : Along set strict x s y t Q) {P : α → σ → Prop} (hx : Yields x s P) :
    Along set strict x s y t fun a s' t' => P a s' ∧ Q a s' t' := by
  unfold Along at h ⊢
  split at h
  · obtain ⟨t', hy, hq⟩ := h
    exact ⟨t', hy, hx _ _ ‹_›, hq⟩
  · exact h

/-- Two runs that go along with a third go along with each other. -/
theorem join {z : EStateM ConvertError σ α} {u : σ} (h : Along set strict x s z u Q)
    (h' : Along (set.inMode strict) strict y t z u R) :
    Along set strict x s y t fun a s' t' => ∃ u', Q a s' u' ∧ R a t' u' := by
  unfold Along at h h' ⊢
  cases hx : x s with
  | ok a s' =>
    rw [hx] at h
    obtain ⟨u', hz, hq⟩ := h
    cases hy : y t with
    | ok b t' =>
      rw [hy] at h'
      obtain ⟨u'', hz', hr⟩ := h'
      obtain ⟨rfl, rfl⟩ : a = b ∧ u' = u'' := by simpa [hz] using hz'
      exact ⟨t', rfl, u', hq, hr⟩
    | error e t' =>
      rw [hy] at h'
      obtain ⟨u'', hz'⟩ := h'.2 rfl
      simp [hz] at hz'
  | error e s' =>
    rw [hx] at h
    refine ⟨h.1, fun hmode => ?_⟩
    obtain ⟨u', hz⟩ := h.2 hmode
    cases hy : y t with
    | ok b t' =>
      rw [hy] at h'
      obtain ⟨u'', hz', -⟩ := h'
      simp [hz] at hz'
    | error e' t' =>
      rw [hy] at h'
      obtain ⟨u'', hz'⟩ := h'.2 rfl
      obtain ⟨rfl, -⟩ : e = e' ∧ u' = u'' := by simpa [hz] using hz'
      exact ⟨t', rfl⟩

/-- A disagreement is an error in strict mode, and passed over otherwise. -/
theorem disagree {e : ConvertError} {v w : EStateM ConvertError σ α}
    (hmode : strict = true → set.strict = true) (hv : ∃ s', v s = .error e s')
    (hw : ∃ t', w t = .error e t') (he : e.Arises true)
    (h : set.strict = false → Along set strict x s y t Q) :
    Along set strict (if set.strict then v else x) s
      (if (set.inMode strict).strict then w else y) t Q := by
  cases hs : set.strict with
  | true =>
    obtain ⟨s', hv⟩ := hv
    simp only [Along, if_true, hv]
    refine ⟨hs ▸ he, fun heq => ?_⟩
    have hstrict : (set.inMode strict).strict = true := heq.trans hs
    rwa [if_pos hstrict]
  | false =>
    have hstrict : strict = false := Bool.eq_false_iff.mpr fun h => by simp [hmode h] at hs
    subst hstrict
    exact h hs

end Along

/-! ## Drafts that differ in hidden fields -/

variable {hidden : Hidden} {d d' : Draft} {n n' : Node} {f f' : Filling}

/-- The drafts are the same, hidden fields and history apart. -/
structure Draft.Alike (hidden : Hidden) (d d' : Draft) : Prop where
  tree : d.tree.Alike hidden d'.tree
  tokens_eq : d.tokens = d'.tokens
  comments_eq : d.comments = d'.comments
  cursor_eq : d.cursor = d'.cursor
  scopes_eq : d.scopes = d'.scopes

/-- The children gathered are the same as well. -/
structure Filling.Alike (hidden : Hidden) (f f' : Filling) : Prop where
  draft : f.draft.Alike hidden f'.draft
  children_eq : f.children = f'.children

/-- The numbers of nodes are not hidden. -/
def Hidden.ShowsNumbers (hidden : Hidden) : Prop := ∀ type, Node.flowIdName ∉ hidden type

namespace Draft.Alike

theorem refl (hidden : Hidden) (d : Draft) : d.Alike hidden d := ⟨rfl, rfl, rfl, rfl, rfl⟩

theorem symm (h : d.Alike hidden d') : d'.Alike hidden d :=
  ⟨h.tree.symm, h.tokens_eq.symm, h.comments_eq.symm, h.cursor_eq.symm, h.scopes_eq.symm⟩

theorem trans {d'' : Draft} (h : d.Alike hidden d') (h' : d'.Alike hidden d'') :
    d.Alike hidden d'' :=
  ⟨Eq.trans h.tree h'.tree, h.tokens_eq.trans h'.tokens_eq, h.comments_eq.trans h'.comments_eq,
    h.cursor_eq.trans h'.cursor_eq, h.scopes_eq.trans h'.scopes_eq⟩

theorem add (h : d.Alike hidden d') (hn : n.Alike hidden n') :
    (d.add n).Alike hidden (d'.add n') := by
  refine ⟨h.tree.push hn, ?_, h.comments_eq, h.cursor_eq, h.scopes_eq⟩
  simp only [Draft.add, hn.token_eq, h.tokens_eq, h.tree.size_eq]

/-- A node is added and numbered. -/
theorem number (h : d.Alike hidden d') (hn : n.Alike hidden n') (hfields : n.fields.Ordered)
    (hfields' : n'.fields.Ordered) (hflow : Node.flowIdName ∉ hidden n.type) (origin : Option Key) :
    ((d.add n).number d.tree.size origin).Alike hidden
      ((d'.add n').number d'.tree.size origin) := by
  cases origin with
  | none => exact h.add hn
  | some key =>
    refine ⟨?_, (h.add hn).tokens_eq, h.comments_eq, h.cursor_eq, ?_⟩
    · simp only [Draft.number, Draft.stamp, Draft.add, Tree.modify_push, h.scopes_eq]
      exact h.tree.push (hn.insert hfields hfields' hflow)
    · simp only [Draft.number, Draft.stamp, Draft.add, h.scopes_eq]

theorem rangeOf_eq (h : d.Alike hidden d') (x : Option NodeId) : d.rangeOf x = d'.rangeOf x := by
  simp only [Draft.rangeOf, (h.tree.node _).range_eq]

theorem typeOf_eq (h : d.Alike hidden d') (i : NodeId) : d.typeOf i = d'.typeOf i :=
  (h.tree.node i).type_eq

theorem commentsBefore_eq (h : d.Alike hidden d') (offset : Nat) :
    d.commentsBefore offset = d'.commentsBefore offset := by
  funext k
  induction k with
  | zero => rfl
  | succ k ih =>
    simp only [commentsBefore, ih, h.comments_eq, (h.tree.node _).offset_eq]

theorem tokensByOffset_eq (h : d.Alike hidden d') : d.tokensByOffset = d'.tokensByOffset := by
  simp only [tokensByOffset, h.tokens_eq, (h.tree.node _).offset_eq]

end Draft.Alike

/-! ## Leaves -/

/-- Offsets inside of the source have positions. -/
theorem SourceFile.exists_range (file : SourceFile) {offset stop : Nat} (hoffset : offset ≤ file.size)
    (hstop : stop ≤ file.size) : ∃ range, file.range offset stop = .ok range := by
  have hposition : ∀ i ≤ file.size, ∃ p, file.position i = .ok p := by
    intro i hi
    have hin : ¬ file.text.utf8ByteSize < i := Nat.not_lt_of_le hi
    simp only [position, LineMap.position?, if_neg hin]
    split
    · exact ⟨_, rfl⟩
    · rename_i hnone
      split at hnone <;> cases hnone
  obtain ⟨p, hp⟩ := hposition offset hoffset
  obtain ⟨q, hq⟩ := hposition stop hstop
  exact ⟨⟨p.1, p.2, q.1, q.2⟩, by simp only [range, hp, hq]; rfl⟩

/-- A value that both runs compute. -/
structure ExceptAlong (set : Setting) (strict : Bool) (v w : Except ConvertError α)
    (R : α → α → Prop) : Prop where
  ok : ∀ a, v = .ok a → ∃ b, w = .ok b ∧ R a b
  error : ∀ e, v = .error e → e.Arises set.strict ∧ (strict = set.strict → w = .error e)

namespace ExceptAlong

variable {R : α → α → Prop}

theorem of_ok {a b : α} (h : R a b) : ExceptAlong set strict (.ok a) (.ok b) R where
  ok := by rintro _ ⟨⟩; exact ⟨b, rfl, h⟩
  error := by rintro _ ⟨⟩

theorem of_error {e : ConvertError} (h : e.Arises set.strict) :
    ExceptAlong set strict (.error e) (.error e) R where
  ok := by rintro _ ⟨⟩
  error := by rintro _ ⟨⟩; exact ⟨h, fun _ => rfl⟩

theorem disagree {e : ConvertError} {a b : α} (hmode : strict = true → set.strict = true)
    (he : e.Arises true) (h : R a b) :
    ExceptAlong set strict (if set.strict then .error e else .ok a)
      (if strict then .error e else .ok b) R := by
  cases hs : set.strict with
  | true =>
    refine ⟨by rintro _ ⟨⟩, ?_⟩
    rintro _ ⟨⟩
    exact ⟨hs ▸ he, fun heq => by simp [heq, hs]⟩
  | false =>
    have hstrict : strict = false := Bool.eq_false_iff.mpr fun h => by simp [hmode h] at hs
    subst hstrict
    exact of_ok h

theorem bind {f g : α → Build β} {v w : Except ConvertError α} {Q : β → Draft → Draft → Prop}
    (h : ExceptAlong set strict v w R)
    (hfg : ∀ a b, v = .ok a → R a b → Along set strict (f a) d (g b) d' Q) :
    Along set strict (Build.ofExcept v >>= f) d (Build.ofExcept w >>= g) d' Q := by
  cases v with
  | ok a =>
    obtain ⟨b, rfl, hab⟩ := h.ok a rfl
    exact hfg a b rfl hab
  | error e =>
    obtain ⟨he, hw⟩ := h.error e rfl
    refine ⟨he, fun hmode => ⟨d', ?_⟩⟩
    rw [hw hmode]
    rfl

end ExceptAlong

section Leaves

variable {offset stop : Nat} {kind : TokenKind} {type : NodeType} {fields fields' : Fields}

/-- Leaves that two runs make of the same text, each with its fields. -/
structure LeafAlike (hidden : Hidden) (type : NodeType) (fields fields' : Fields) (n n' : Node) :
    Prop where
  alike : n.Alike hidden n'
  type_eq : n.type = type
  fields_eq : n.fields = fields
  fields_eq' : n'.fields = fields'

variable (hmode : strict = true → set.strict = true)

include hmode

theorem leafNode?_along (hfields : fields.without (hidden type) = fields'.without (hidden type)) :
    ExceptAlong set strict (leafNode? set offset stop kind type fields)
      (leafNode? (set.inMode strict) offset stop kind type fields')
      (Option.Rel (LeafAlike hidden type fields fields')) := by
  by_cases hout : stop < offset ∨ set.size < stop
  · have herror (set : Setting) (fields : Fields) (hout : stop < offset ∨ set.size < stop) :
        leafNode? set offset stop kind type fields = .error (.invalidToken (set.location offset stop)) :=
      if_pos hout
    rw [herror set fields hout, herror (set.inMode strict) fields' hout]
    exact .of_error trivial
  by_cases hempty : offset = stop ∧ kind ≠ .endOfFile
  · have hnone (set : Setting) (fields : Fields) (hout : ¬(stop < offset ∨ set.size < stop)) :
        leafNode? set offset stop kind type fields =
          if set.strict then .error (.emptyToken (set.location offset stop)) else .ok none :=
      (if_neg hout).trans (if_pos hempty)
    rw [hnone set fields hout, hnone (set.inMode strict) fields' hout]
    exact .disagree hmode rfl .none
  have hleaf (set : Setting) (fields : Fields) (hout : ¬(stop < offset ∨ set.size < stop)) :
      leafNode? set offset stop kind type fields =
        (Text.slice? set.source offset stop).elim (.error (.invalidToken (set.location offset stop)))
          fun text => (set.file.range offset stop).map fun range =>
            some ⟨type, range, offset, stop, some ⟨text, range, kind⟩, [], fields⟩ := by
    rw [leafNode?, if_neg hout, if_neg hempty]
    cases Text.slice? set.source offset stop <;> rfl
  rw [hleaf set fields hout, hleaf (set.inMode strict) fields' hout, Setting.source_inMode,
    Setting.file_inMode]
  cases Text.slice? set.source offset stop with
  | none => exact .of_error trivial
  | some text =>
    obtain ⟨hoffset, hstop⟩ : offset ≤ set.size ∧ stop ≤ set.size := by omega
    obtain ⟨range, hrange⟩ := set.file.exists_range hoffset hstop
    rw [hrange]
    exact .of_ok (.some ⟨⟨rfl, rfl, rfl, rfl, rfl, rfl, hfields⟩, rfl, rfl, rfl⟩)

theorem expectedStop?_along {expected : String} :
    ExceptAlong set strict (expectedStop? set offset expected)
      (expectedStop? (set.inMode strict) offset expected) (· = ·) := by
  obtain ⟨file, mode⟩ := set
  rcases hspan : file.lines.spanOf offset expected with ⟨stop, spelling⟩
  have hstop (mode : Bool) : expectedStop? ⟨file, mode⟩ offset expected =
      if file.size < stop then .error (.invalidToken (file.location offset stop))
      else if Text.slice file.text offset stop = spelling then .ok (some stop)
      else if mode then
        .error (.tokenValue (Text.slice file.text offset stop) spelling (file.location offset stop))
      else .ok none := by
    rw [expectedStop?, hspan]
    rfl
  rw [Setting.inMode, hstop mode, hstop strict]
  split
  · exact .of_error trivial
  split
  · exact .of_ok rfl
  · exact .disagree hmode rfl rfl

end Leaves

namespace Build

variable {offset stop : Nat} {kind : TokenKind} {type : NodeType} {fields fields' : Fields}

/-- What two runs make of a leaf: nothing, or a leaf each. -/
inductive LeavesAlike (hidden : Hidden) (d d' : Draft) (type : NodeType) (fields fields' : Fields) :
    Option NodeId → Draft → Draft → Prop where
  | none : LeavesAlike hidden d d' type fields fields' none d d'
  | some (n n' : Node) : LeafAlike hidden type fields fields' n n' →
    LeavesAlike hidden d d' type fields fields' (some d.tree.size) (d.add n) (d'.add n')

theorem LeavesAlike.alike {x : Option NodeId} {e e' : Draft}
    (h : LeavesAlike hidden d d' type fields fields' x e e') (hd : d.Alike hidden d') :
    e.Alike hidden e' := by
  cases h with
  | none => exact hd
  | some n n' hn => exact hd.add hn.alike

theorem add_along (hd : d.Alike hidden d') {Q : NodeId → Draft → Draft → Prop}
    (h : Q d.tree.size (d.add n) (d'.add n')) : Along set strict (add n) d (add n') d' Q :=
  ⟨d'.add n', by rw [add, hd.tree.size_eq], h⟩

variable (hmode : strict = true → set.strict = true)

include hmode

theorem leaf_along (hd : d.Alike hidden d')
    (hfields : fields.without (hidden type) = fields'.without (hidden type)) :
    Along set strict (leaf set offset stop kind type fields) d
      (leaf (set.inMode strict) offset stop kind type fields') d'
      (LeavesAlike hidden d d' type fields fields') := by
  refine (leafNode?_along hmode hfields).bind fun a b _ hab => ?_
  cases hab with
  | none => exact .pure .none
  | some hn => exact .map (add_along hd (.some _ _ hn))

theorem expectedLeaf_along {expected : String} (hd : d.Alike hidden d')
    (hfields : fields.without (hidden type) = fields'.without (hidden type)) :
    Along set strict (expectedLeaf set offset expected kind type fields) d
      (expectedLeaf (set.inMode strict) offset expected kind type fields') d'
      fun _ => Draft.Alike hidden := by
  refine (expectedStop?_along hmode).bind fun a b _ hab => ?_
  subst hab
  cases a with
  | none => exact .pure hd
  | some stop => exact (leaf_along hmode hd hfields).mono fun _ _ _ h => h.alike hd

theorem token_along {label : String} (hd : d.Alike hidden d') :
    Along set strict (token set offset stop label kind) d
      (token (set.inMode strict) offset stop label kind) d' fun _ => Draft.Alike hidden :=
  (leaf_along hmode hd rfl).mono fun _ _ _ h => h.alike hd

theorem endMark_along (hd : d.Alike hidden d') :
    Along set strict (endMark set) d (endMark (set.inMode strict)) d' fun _ => Draft.Alike hidden :=
  token_along hmode hd

/-- One leaf for each comment. -/
theorem comments_along {cs : List Go.Comment} (hd : d.Alike hidden d') :
    Along set strict (comments set cs) d (comments (set.inMode strict) cs) d'
      fun _ => Draft.Alike hidden := by
  induction cs generalizing d d' with
  | nil => exact .pure hd
  | cons c cs ih =>
    refine .bind ((expectedLeaf_along hmode hd rfl).mono fun x e e' he => ?_)
    cases x with
    | none => exact ih he
    | some i =>
      refine .bind (Q := fun _ => Draft.Alike hidden) ⟨_, rfl, ih ?_⟩
      exact ⟨he.tree, he.tokens_eq, congrArg (·.push i) he.comments_eq, he.cursor_eq, he.scopes_eq⟩

/-! ## Nodes -/

/-- A node is made over the same children. -/
theorem node_along {origin : Option Key} {children : List NodeId} (hhidden : hidden.ShowsNumbers)
    (hd : d.Alike hidden d') (hordered : fields.Ordered) (hordered' : fields'.Ordered)
    (hfields : fields.without (hidden type) = fields'.without (hidden type)) :
    Along set strict (node set origin type fields children) d
      (node (set.inMode strict) origin type fields' children) d' fun _ => Draft.Alike hidden := by
  cases children with
  | cons first rest =>
    have hrun (set : Setting) (d : Draft) (fields : Fields) :
        node set origin type fields (first :: rest) d = .ok (some d.tree.size)
          ((d.add (innerNode d.tree first ((first :: rest).getLastD first) (first :: rest) type
            fields)).number d.tree.size origin) := by
      cases origin <;> rfl
    have hinner : (innerNode d.tree first ((first :: rest).getLastD first) (first :: rest) type
        fields).Alike hidden (innerNode d'.tree first ((first :: rest).getLastD first)
          (first :: rest) type fields') := by
      refine ⟨rfl, ?_, (hd.tree.node first).offset_eq, (hd.tree.node _).stop_eq, rfl, rfl, hfields⟩
      simp only [innerNode, (hd.tree.node _).range_eq]
    rw [Along, hrun]
    refine ⟨_, ?_, hd.number hinner hordered hordered' (hhidden type) origin⟩
    rw [hrun, hd.tree.size_eq]
  | nil =>
    cases origin with
    | none => exact .pure hd
    | some key =>
      refine .bind ((leaf_along hmode hd hfields).mono fun x e e' he => ?_)
      cases he with
      | none => exact .pure hd
      | some n n' hn =>
        refine ⟨(d'.add n').stamp d'.tree.size key, ?_, ?_⟩
        · rw [hd.tree.size_eq]
          rfl
        · exact hd.number hn.alike (hn.fields_eq ▸ hordered) (hn.fields_eq' ▸ hordered')
            (hn.type_eq ▸ hhidden type) (some key)

end Build

/-! ## Gaps -/

namespace Filling.Alike

theorem push (h : f.Alike hidden f') (i : NodeId) :
    Filling.Alike hidden ⟨f.draft, f.children.push i⟩ ⟨f'.draft, f'.children.push i⟩ :=
  ⟨h.draft, congrArg (·.push i) h.children_eq⟩

theorem cursor (h : f.Alike hidden f') {k k' : Nat} (hk : k = k') :
    Filling.Alike hidden ⟨{ f.draft with cursor := k }, f.children⟩
      ⟨{ f'.draft with cursor := k' }, f'.children⟩ :=
  ⟨⟨h.draft.tree, h.draft.tokens_eq, h.draft.comments_eq, hk, h.draft.scopes_eq⟩, h.children_eq⟩

end Filling.Alike

namespace Fill

/-- A step on the draft alone. -/
theorem build_along {b c : Build α} {Q : α → Filling → Filling → Prop}
    (h : Along set strict b f.draft c f'.draft fun a d d' => Q a ⟨d, f.children⟩ ⟨d', f'.children⟩) :
    Along set strict (build b) f (build c) f' Q := by
  simp only [Along, build] at h ⊢
  cases hb : b f.draft with
  | ok a d =>
    rw [hb] at h
    obtain ⟨d', hc, hq⟩ := h
    exact ⟨⟨d', f'.children⟩, by simp only [hc], hq⟩
  | error e d =>
    rw [hb] at h
    refine ⟨h.1, fun hmode => ?_⟩
    obtain ⟨d', hc⟩ := h.2 hmode
    exact ⟨⟨d', f'.children⟩, by simp only [hc]⟩

/-- A child is gathered as it is. -/
theorem push_along {i : NodeId} {Q : Unit → Filling → Filling → Prop}
    (h : Q () ⟨f.draft, f.children.push i⟩ ⟨f'.draft, f'.children.push i⟩) :
    Along set strict (push i) f (push i) f' Q := ⟨_, rfl, h⟩

theorem pushSome_along {x : Option NodeId} (hf : f.Alike hidden f') :
    Along set strict (pushSome x) f (pushSome x) f' fun _ => Filling.Alike hidden := by
  cases x with
  | none => exact .pure hf
  | some i => exact push_along (hf.push i)

variable {offset stop : Nat} (hmode : strict = true → set.strict = true)

include hmode

theorem token_along {label : String} {kind : TokenKind} (hf : f.Alike hidden f') :
    Along set strict (build (Build.token set offset stop label kind) >>= pushSome) f
      (build (Build.token (set.inMode strict) offset stop label kind) >>= pushSome) f'
      fun _ => Filling.Alike hidden :=
  .bind (build_along ((Build.token_along hmode hf.draft).mono fun _ _ _ h =>
    pushSome_along ⟨h, hf.children_eq⟩))

theorem pieces_along (ps : List GapPiece) (hf : f.Alike hidden f') :
    Along set strict (pieces set ps) f (pieces (set.inMode strict) ps) f'
      fun _ => Filling.Alike hidden := by
  induction ps generalizing f f' with
  | nil => exact .pure hf
  | cons p ps ih =>
    cases p with
    | token offset m =>
      simp only [pieces, ← bind_assoc]
      exact .bind ((token_along hmode hf).mono fun _ _ _ h => ih h)
    | rest offset stop =>
      simp only [pieces]
      refine .disagree hmode ⟨_, rfl⟩ ⟨_, rfl⟩ rfl fun _ => ?_
      simp only [← bind_assoc]
      exact .bind ((token_along hmode hf).mono fun _ _ _ h => ih h)

theorem missing_along (hf : f.Alike hidden f') :
    Along set strict (missing set offset stop) f (missing (set.inMode strict) offset stop) f'
      fun _ => Filling.Alike hidden := by
  by_cases hout : stop < offset ∨ set.size < stop
  · have hrun (set : Setting) (hout : stop < offset ∨ set.size < stop) : missing set offset stop =
        if set.strict then throw (.tokenSequence (set.location offset stop)) else pure () :=
      if_pos hout
    rw [hrun set hout, hrun (set.inMode strict) hout]
    exact .disagree hmode ⟨_, rfl⟩ ⟨_, rfl⟩ rfl fun _ => .pure hf
  · have hrun (set : Setting) (hout : ¬(stop < offset ∨ set.size < stop)) :
        missing set offset stop =
          let first := Text.skipBlanks set.source offset stop
          pieces set (gapPieces set.source first (Text.trimBlanks set.source first stop)) :=
      if_neg hout
    rw [hrun set hout, hrun (set.inMode strict) hout]
    exact pieces_along hmode _ hf

/-- The comments of a gap are placed alike. -/
theorem placeComments_along {cs cs' : List NodeId} (hcs : cs = cs') (hf : f.Alike hidden f') :
    Along set strict (placeComments set stop cs offset) f
      (placeComments (set.inMode strict) stop cs' offset) f' fun _ => Filling.Alike hidden := by
  subst hcs
  induction cs generalizing f f' offset with
  | nil => exact .pure hf
  | cons c cs ih =>
    have hc := hf.draft.tree.node c
    unfold placeComments
    refine .get ?_
    simp only [hc.offset_eq, hc.stop_eq]
    split
    · split
      · exact .pure hf
      refine .bind ((missing_along hmode hf).mono fun _ f₁ f₁' h₁ => ?_)
      refine .bind (push_along (.bind ⟨_, rfl, ?_⟩))
      exact ih ((h₁.push c).cursor (congrArg (· + 1) h₁.draft.cursor_eq))
    · exact .bind ⟨_, rfl, ih (hf.cursor (congrArg (· + 1) hf.draft.cursor_eq))⟩

theorem gap_along (hf : f.Alike hidden f') :
    Along set strict (gap set offset stop) f (gap (set.inMode strict) offset stop) f'
      fun _ => Filling.Alike hidden := by
  have hcursor : f.draft.commentsBefore offset f.draft.cursor =
      f'.draft.commentsBefore offset f'.draft.cursor := by
    rw [hf.draft.commentsBefore_eq, hf.draft.cursor_eq]
  unfold gap
  refine .bind ⟨_, rfl, .get (.bind ((placeComments_along hmode ?_ (hf.cursor hcursor)).mono
    fun _ _ _ h => missing_along hmode h))⟩
  simp only [hcursor, hf.draft.comments_eq]

/-! ## Children -/

theorem appendFrom_along {i : NodeId} (hf : f.Alike hidden f') :
    Along set strict (appendFrom set offset i) f (appendFrom (set.inMode strict) offset i) f'
      fun _ => Filling.Alike hidden := by
  unfold appendFrom
  refine .get ?_
  simp only [(hf.draft.tree.node i).offset_eq]
  exact .bind ((gap_along hmode hf).mono fun _ _ _ h => push_along (h.push i))

theorem append_along {x : Option NodeId} (hf : f.Alike hidden f') :
    Along set strict (append set x) f (append (set.inMode strict) x) f'
      fun _ => Filling.Alike hidden := by
  cases x with
  | none => exact .pure hf
  | some i =>
    refine .get ?_
    rw [← hf.children_eq]
    split
    · exact push_along (hf.push i)
    · rename_i last _
      simp only [(hf.draft.tree.node i).offset_eq, (hf.draft.tree.node last).stop_eq]
      split
      · exact .disagree hmode ⟨_, rfl⟩ ⟨_, rfl⟩ rfl fun _ => push_along (hf.push i)
      · exact appendFrom_along hmode hf

theorem appendAll_along (xs : List (Option NodeId)) (hf : f.Alike hidden f') :
    Along set strict (appendAll set xs) f (appendAll (set.inMode strict) xs) f'
      fun _ => Filling.Alike hidden := by
  induction xs generalizing f f' with
  | nil => exact .pure hf
  | cons x xs ih => exact .bind ((append_along hmode hf).mono fun _ _ _ h => ih h)

end Fill

end LosslessGo
