import LosslessGo.Proofs.Draft.Cursor
import LosslessGo.Proofs.Draft.Takes

/-!
# Gaps of commas

In strict mode a gap gathers one token for each byte of its text that is neither a blank nor in a comment,
where all these bytes are commas.

* `Draft.bareOffsets`: where these bytes are.
* `Fill.gap_size`: how many tokens are added.
* `Fill.gap_visible`: the tokens that are added are what a gap shows.
-/

namespace LosslessGo

open scoped List

variable {set : Setting} {d d' : Draft} {f f' : Filling} {a b c i k : Nat} {p q : Nat → Bool}
  {children : Array NodeId} {cs : List NodeId} {node : NodeId → Node} {source : String}

namespace Text

/-- The byte of a comma. -/
def comma : UInt8 := 44

/-- Whether a byte stands at offset `k` that is no blank. -/
def inkAt (s : String) (k : Nat) : Bool := (byteAt? s k).any fun b => !isBlank b

/-- The offsets from `a` to `b` with a property. -/
def offsets (p : Nat → Bool) (a b : Nat) : List Nat := (List.range' a (b - a)).filter p

theorem mem_offsets : k ∈ offsets p a b ↔ a ≤ k ∧ k < b ∧ p k = true := by
  rw [offsets, List.mem_filter, List.mem_range'_1]
  constructor
  · rintro ⟨⟨hle, hlt⟩, hp⟩
    exact ⟨hle, by omega, hp⟩
  · rintro ⟨hle, hlt, hp⟩
    exact ⟨⟨hle, by omega⟩, hp⟩

theorem offsets_append (hab : a ≤ b) (hbc : b ≤ c) :
    offsets p a c = offsets p a b ++ offsets p b c := by
  have hstart : b = a + (b - a) := by omega
  have hlength : c - a = (b - a) + (c - b) := by omega
  rw [offsets, offsets, offsets, ← List.filter_append, hlength, ← List.range'_append_1, ← hstart]

theorem offsets_congr (h : ∀ k, a ≤ k → k < b → p k = q k) : offsets p a b = offsets q a b := by
  refine List.filter_congr fun k hk => ?_
  have hk := List.mem_range'_1.mp hk
  exact h k hk.1 (by omega)

theorem offsets_eq_nil (h : ∀ k, a ≤ k → k < b → p k = false) : offsets p a b = [] :=
  List.eq_nil_iff_forall_not_mem.mpr fun k hk => by
    obtain ⟨hle, hlt, hp⟩ := mem_offsets.mp hk
    rw [h k hle hlt] at hp
    cases hp

theorem offsets_of_blank {s : String} (h : Blank s a b) : offsets (inkAt s) a b = [] := by
  refine offsets_eq_nil fun k hle hlt => ?_
  cases hbyte : byteAt? s k with
  | none => simp [inkAt, hbyte]
  | some x => simp [inkAt, hbyte, h k x hle hlt hbyte]

theorem offsets_single (h : p a = true) : offsets p a (a + 1) = [a] := by
  simp [offsets, h]

/-- Where blanks stop, ink starts. -/
theorem inkAt_skipBlanks {s : String} {x : UInt8} (hlt : skipBlanks s a b < b)
    (hbyte : byteAt? s (skipBlanks s a b) = some x) : inkAt s (skipBlanks s a b) = true := by
  fun_induction skipBlanks s a b with
  | case1 a _ ih => exact ih hlt hbyte
  | case2 a h =>
    have hblank : blankAt s a = false := by simpa [hlt] using h
    simpa [inkAt, blankAt, hbyte] using hblank

end Text

open Text

/-! ## Text without comments -/

theorem missingAt?_of_comma (h : byteAt? source i = some comma) :
    missingAt? source i = some ⟨",", .other, ""⟩ := by
  have hmissing : missing? comma = some ⟨",", .other, ""⟩ := by decide
  have hspells : spells source i "," = true := by
    have hword : byteAt? "," 0 = some comma := by decide
    have hrange : List.range ",".utf8ByteSize = [0] := by decide
    simp [spells, hrange, h, hword]
  rw [missingAt?, h, Option.bind_some, hmissing, Option.filter_some, if_pos hspells]

namespace Fill

theorem token_size {label : String} {kind : TokenKind} (hlt : a < b) :
    Yields (build (Build.token set a b label kind) >>= pushSome) f fun _ f' =>
      f'.draft.tree.size = f.draft.tree.size + 1 := by
  refine .bind ((build_yields Build.leaf_yields).mono ?_)
  rintro x ⟨d, cs⟩ ⟨rfl, ⟨-, -, he, -⟩ | ⟨n, -, rfl, rfl⟩⟩
  · omega
  · exact push_yields Tree.size_push

theorem pieces_size (hstrict : set.strict = true)
    (hcommas : ∀ k ∈ offsets (inkAt set.source) a b, byteAt? set.source k = some comma) :
    Yields (pieces set (gapPieces set.source a b)) f fun _ f' =>
      f'.draft.tree.size = f.draft.tree.size + (offsets (inkAt set.source) a b).length := by
  fun_induction gapPieces set.source a b generalizing f with
  | case1 a i hi m hm =>
    rename_i ih
    have hle : a ≤ i := le_skipBlanks _ _ _
    obtain ⟨hbyte, -⟩ := Option.filter_eq_some_iff.mp hm
    obtain ⟨x, hx, -⟩ := Option.bind_eq_some_iff.mp hbyte
    have hink : inkAt set.source i = true := inkAt_skipBlanks hi hx
    have hcomma := hcommas i (mem_offsets.mpr ⟨hle, hi, hink⟩)
    obtain rfl : m = ⟨",", .other, ""⟩ :=
      Option.some_inj.mp (hm.symm.trans (missingAt?_of_comma hcomma))
    have hsplit : offsets (inkAt set.source) a b = i :: offsets (inkAt set.source) (i + 1) b := by
      rw [offsets_append hle hi.le, offsets_of_blank (blank_skipBlanks _ _ _),
        offsets_append (Nat.le_succ i) hi, offsets_single hink]
      rfl
    rw [hsplit] at hcommas ⊢
    simp only [pieces, ← bind_assoc]
    refine .bind ((token_size (Nat.lt_succ_self i)).mono fun _ f₁ h₁ => ?_)
    refine (ih (List.forall_mem_cons.mp hcommas).2).mono fun _ f₂ h₂ => ?_
    rw [h₂, h₁, List.length_cons, Nat.add_assoc, Nat.add_comm 1]
    rfl
  | case2 a i hi =>
    simp only [pieces, hstrict, if_true]
    exact .bind .throw
  | case3 a hi =>
    have hblank : Blank set.source a b := by
      by_cases hab : a ≤ b
      · have hle := skipBlanks_le (s := set.source) hab
        have hblank := blank_skipBlanks set.source a b
        rwa [show skipBlanks set.source a b = b by omega] at hblank
      · exact .of_le (Nat.le_of_not_le hab)
    rw [offsets_of_blank hblank]
    exact .pure rfl

theorem missing_size (hstrict : set.strict = true)
    (hcommas : ∀ k ∈ offsets (inkAt set.source) a b, byteAt? set.source k = some comma) :
    Yields (missing set a b) f fun _ f' =>
      f'.draft.tree.size = f.draft.tree.size + (offsets (inkAt set.source) a b).length := by
  unfold missing
  split
  · exact .throw
  · have hab : a ≤ b := by omega
    have hfirst := skipBlanks_le (s := set.source) hab
    have hlast := le_trimBlanks (s := set.source) hfirst
    have hsplit : offsets (inkAt set.source) a b =
        offsets (inkAt set.source) (skipBlanks set.source a b)
          (trimBlanks set.source (skipBlanks set.source a b) b) := by
      rw [offsets_append (le_skipBlanks _ _ _) hfirst, offsets_of_blank (blank_skipBlanks _ _ _),
        offsets_append hlast (trimBlanks_le _ _ _), offsets_of_blank (blank_trimBlanks _ _ _),
        List.nil_append, List.append_nil]
    rw [hsplit] at hcommas ⊢
    exact pieces_size hstrict hcommas

end Fill

/-! ## Text with comments -/

/-- The byte at offset `k` is in one of the comments that lie between offsets `a` and `b`. -/
def IsCovered (node : NodeId → Node) (cs : List NodeId) (a b k : Nat) : Prop :=
  ∃ c ∈ cs, a ≤ (node c).offset ∧ (node c).stop ≤ b ∧ (node c).offset ≤ k ∧ k < (node c).stop

instance : Decidable (IsCovered node cs a b k) := inferInstanceAs (Decidable (∃ c ∈ cs, _))

/-- The offsets from `a` to `b` of what is neither blank nor in a comment. -/
def bareOffsets (source : String) (node : NodeId → Node) (cs : List NodeId) (a b : Nat) : List Nat :=
  offsets (fun k => inkAt source k ∧ ¬IsCovered node cs a b k) a b

theorem bareOffsets_of_uncovered (h : ∀ k, a ≤ k → k < b → ¬IsCovered node cs a b k) :
    bareOffsets source node cs a b = offsets (inkAt source) a b :=
  offsets_congr fun k hle hlt => by simp [h k hle hlt]

/-- A comment that does not lie in the gap covers nothing. -/
theorem bareOffsets_skip (h : ¬(a ≤ (node i).offset ∧ (node i).stop ≤ b)) :
    bareOffsets source node (i :: cs) a b = bareOffsets source node cs a b := by
  refine offsets_congr fun k _ _ => ?_
  have hcovered : IsCovered node (i :: cs) a b k ↔ IsCovered node cs a b k := by
    rw [IsCovered, List.exists_mem_cons_iff]
    exact or_iff_right fun hin => h ⟨hin.1, hin.2.1⟩
  simp only [hcovered]

/-- A comment of the gap splits its text. -/
theorem bareOffsets_cons (hin : a ≤ (node i).offset ∧ (node i).stop ≤ b)
    (hi : (node i).offset < (node i).stop) (hcs : ∀ c ∈ cs, (node i).stop ≤ (node c).offset) :
    bareOffsets source node (i :: cs) a b =
      offsets (inkAt source) a (node i).offset ++ bareOffsets source node cs (node i).stop b := by
  have hcovered {k : Nat} : IsCovered node (i :: cs) a b k ↔
      (node i).offset ≤ k ∧ k < (node i).stop ∨ IsCovered node cs (node i).stop b k := by
    rw [IsCovered, List.exists_mem_cons_iff]
    refine or_congr ⟨fun h => h.2.2, fun h => ⟨hin.1, hin.2, h⟩⟩ ?_
    refine exists_congr fun c => and_congr_right fun hc => and_congr_left' ⟨fun _ => hcs c hc, fun h => ?_⟩
    omega
  have hbehind {k : Nat} (h : IsCovered node cs (node i).stop b k) : (node i).stop ≤ k := by
    obtain ⟨c, -, hle, -, hk, -⟩ := h
    exact hle.trans hk
  have hbefore : offsets (fun k => inkAt source k ∧ ¬IsCovered node (i :: cs) a b k) a (node i).offset =
      offsets (inkAt source) a (node i).offset := by
    refine offsets_congr fun k _ hlt => ?_
    have hout : ¬IsCovered node (i :: cs) a b k := fun h => by
      rcases hcovered.mp h with h | h
      · omega
      · have := hbehind h
        omega
    simp [hout]
  have hinside : offsets (fun k => inkAt source k ∧ ¬IsCovered node (i :: cs) a b k) (node i).offset
      (node i).stop = [] := by
    refine offsets_eq_nil fun k hle hlt => ?_
    simp [hcovered.mpr (.inl ⟨hle, hlt⟩)]
  have hrest : offsets (fun k => inkAt source k ∧ ¬IsCovered node (i :: cs) a b k) (node i).stop b =
      bareOffsets source node cs (node i).stop b := by
    refine offsets_congr fun k hle _ => ?_
    have hsame : IsCovered node (i :: cs) a b k ↔ IsCovered node cs (node i).stop b k :=
      hcovered.trans (or_iff_right fun h => by omega)
    simp only [hsame]
  rw [bareOffsets, offsets_append hin.1 (hi.le.trans hin.2), offsets_append hi.le hin.2, hbefore,
    hinside, hrest, List.nil_append]

namespace Fill

/-- The text behind the last comment. -/
theorem missing_size_of_uncovered (hstrict : set.strict = true)
    (hcommas : ∀ k ∈ bareOffsets set.source node cs a b, byteAt? set.source k = some comma)
    (h : ∀ k, a ≤ k → k < b → ¬IsCovered node cs a b k) :
    Yields (missing set a b) f fun _ f' =>
      f'.draft.tree.size = f.draft.tree.size + (bareOffsets set.source node cs a b).length := by
  rw [bareOffsets_of_uncovered h] at hcommas ⊢
  exact missing_size hstrict hcommas

/-- Comments in order, and the text between them and behind the last. -/
theorem placeComments_size (hstrict : set.strict = true)
    (hcs : f.draft.tree.ShowsComments node cs)
    (hordered : cs.Pairwise fun c c' => (node c).stop ≤ (node c').offset)
    (hcommas : ∀ k ∈ bareOffsets set.source node cs a b, byteAt? set.source k = some comma) :
    Yields (placeComments set b cs a) f fun reached f₁ =>
      Yields (missing set reached b) f₁ fun _ f' =>
        f'.draft.tree.size = f.draft.tree.size + (bareOffsets set.source node cs a b).length := by
  induction cs generalizing f a with
  | nil => exact .pure (missing_size_of_uncovered hstrict hcommas fun k _ _ => by simp [IsCovered])
  | cons c cs ih =>
    obtain ⟨⟨-, hnode, hcomment⟩, hrest⟩ := List.forall_mem_cons.mp hcs
    obtain ⟨hbehind, hordered⟩ := List.pairwise_cons.mp hordered
    unfold placeComments
    refine .bind (.get ?_)
    simp only [hnode]
    split
    next hle =>
      split
      next hstop =>
        refine .pure (missing_size_of_uncovered hstrict hcommas ?_)
        rintro k - hk ⟨c', hc', -, hin, hle', -⟩
        rcases List.mem_cons.mp hc' with rfl | hc'
        · omega
        · have := hbehind c' hc'
          omega
      next hstop =>
        have hsplit : bareOffsets set.source node (c :: cs) a b =
            offsets (inkAt set.source) a (node c).offset ++
              bareOffsets set.source node cs (node c).stop b :=
          bareOffsets_cons ⟨hle, Nat.le_of_not_lt hstop⟩ hcomment.offset_lt hbehind
        rw [hsplit] at hcommas ⊢
        obtain ⟨hbefore, hafter⟩ := List.forall_mem_append.mp hcommas
        refine .bind (((missing_size hstrict hbefore).and missing_takes).mono fun _ f₁ h₁ => ?_)
        refine .bind (push_yields (.bind (advance_yields ?_)))
        have h₂ := ih (f := ⟨f₁.draft.withCursor (f₁.draft.cursor + 1), f₁.children.push c⟩)
          (.grows hrest h₁.2.grows.tree) hordered hafter
        refine h₂.mono fun _ _ h₃ => h₃.mono fun _ _ h₄ => ?_
        rw [List.length_append, ← Nat.add_assoc, ← h₁.1]
        exact h₄
    next hlt' =>
      have hout : ¬(a ≤ (node c).offset ∧ (node c).stop ≤ b) := fun h => hlt' h.1
      rw [bareOffsets_skip hout] at hcommas ⊢
      have h₁ := ih (f := ⟨f.draft.withCursor (f.draft.cursor + 1), f.children⟩) hrest hordered hcommas
      exact .bind (advance_yields h₁)

end Fill

/-- The offsets of a gap at which neither a blank nor a comment stands. -/
def Draft.bareOffsets (d : Draft) (source : String) (a b : Nat) : List Nat :=
  LosslessGo.bareOffsets source d.tree.node d.comments.toList a b

/-- Comments are hidden. -/
theorem Node.IsComment.not_visible {n : Node} (h : n.IsComment) : n.isVisible = false := by
  obtain ⟨token, htoken, hkind⟩ := (Option.any_eq_true ..).mp h.isComment
  rw [isVisible, htoken, Option.all_some, of_decide_eq_true hkind]
  rfl

namespace Fill

/-- A gap of commas adds a token for each of them. -/
theorem gap_size (hstrict : set.strict = true) (h : d.Tracked 0) (hordered : d.CommentsOrdered)
    (hcommas : ∀ k ∈ d.bareOffsets set.source a b, byteAt? set.source k = some comma) :
    Yields (gap set a b) ⟨d, children⟩ fun _ f' =>
      f'.draft.tree.size = d.tree.size + (d.bareOffsets set.source a b).length := by
  intro u f' hgap
  rw [gap_eq_scan h hordered] at hgap
  have hscan : Yields (scan set a b d.comments.toList) ⟨d.withCursor 0, children⟩ fun _ f' =>
      f'.draft.tree.size = d.tree.size + (d.bareOffsets set.source a b).length :=
    .bind (placeComments_size hstrict h.showsComments hordered hcommas)
  exact hscan u f' hgap

/-- What a gap shows, comments apart, are the tokens that it adds. -/
theorem gap_visible (h : d.Tracked 0) : Yields (gap set a b) ⟨d, children⟩ fun _ f' =>
    ∀ gs, f'.children.toList = children.toList ++ gs →
      f'.draft.tree.visible gs ~ d.added f'.draft ∧
        (∀ g ∈ f'.draft.tree.visible gs, f'.draft.tree.children g = []) ∧
        ∀ g ∈ gs, g < f'.draft.tree.size := by
  intro u f' hgap gs hgs
  have ht := gap_takes u f' hgap
  obtain ⟨cs, hcs, hperm⟩ := ht.perm
  rw [hgs, List.append_nil, List.append_assoc, List.perm_append_left_iff] at hperm
  have hcomments : f'.draft.tree.visible cs = [] := by
    refine List.filter_eq_nil_iff.mpr fun c hc => ?_
    rw [ht.grows.tree.node_eq c (h.lt_size c (hcs c hc))]
    rw [(h.isComment c (hcs c hc)).not_visible]
    exact Bool.false_ne_true
  have htokens : f'.draft.tree.visible (d.added f'.draft) = d.added f'.draft :=
    List.filter_eq_self.mpr fun i hi => Node.visible_of_listed (ht.text i hi).listed
  have hvisible : f'.draft.tree.visible gs ~ d.added f'.draft := by
    have hfilter := hperm.filter fun i => (f'.draft.tree.node i).isVisible
    rw [List.filter_append] at hfilter
    change f'.draft.tree.visible gs ~ f'.draft.tree.visible cs ++
      f'.draft.tree.visible (d.added f'.draft) at hfilter
    rwa [hcomments, htokens] at hfilter
  refine ⟨hvisible, fun g hg => (ht.text g (hvisible.subset hg)).children_eq, fun g hg => ?_⟩
  rcases List.mem_append.mp (hperm.subset hg) with hg | hg
  · exact (h.lt_size g (hcs g hg)).trans_le ht.grows.tree.size_le
  · exact (Draft.mem_added.mp hg).2

end Fill

/-- Comments and blanks apart, the text from `a` to `b` is one comma. -/
def Draft.ShowsComma (d : Draft) (source : String) (a b : Nat) : Prop :=
  (d.bareOffsets source a b).map (byteAt? source) = [some comma]

instance : Decidable (d.ShowsComma source a b) := inferInstanceAs (Decidable (_ = _))

/-- A gap with one comma shows one token. -/
theorem Fill.gap_comma (hstrict : set.strict = true) (h : d.Tracked 0) (hordered : d.CommentsOrdered)
    (hcomma : d.ShowsComma set.source a b) : Yields (gap set a b) ⟨d, children⟩ fun _ f' =>
      ∀ gs, f'.children.toList = children.toList ++ gs → ∃ g, f'.draft.tree.visible gs = [g] := by
  intro u f' hgap gs hgs
  obtain ⟨k, hk, hbyte⟩ := List.map_eq_singleton_iff.mp hcomma
  have hsize := gap_size hstrict h hordered (by simpa [hk] using hbyte) u f' hgap
  rw [hk, List.length_singleton] at hsize
  obtain ⟨hperm, -⟩ := gap_visible h u f' hgap gs hgs
  rw [Draft.added_of_size_succ hsize] at hperm
  exact ⟨_, List.perm_singleton.mp hperm⟩

end LosslessGo
