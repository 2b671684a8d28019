import LosslessGo.Proofs.Flow.Stage

/-!
# Expressions and jumps in a layout

The pieces of statements are laid out by `emit`, `branch`, `compare`, `compareTypes` and `leave`. Each
moves from stage to stage and lays its piece.

* `Moved.emits` and `Moved.branch` are about expressions, `Moved.compare` and `Moved.compareTypes` about
  those of a clause.
* `Env.Covers` and `Env.Sees` tie the blocks that jumps lead to with those that are known to be
  well-formed and with those that are held during the layout; `Moved.leave` is about jumps.
-/

namespace LosslessGo.Flow

open Go

variable {known : String → Option Label} {kept kept' : List Nat} {due : List String} {l : Layout}

/-! ## Expressions -/

namespace Layout

theorem emitVars_eq (d : GenDecl) : l.emitVars d = (varKeys d).foldl emit l := by
  unfold emitVars varKeys
  split
  · rw [List.foldl_map, List.foldl_filter]
    simp only [decide_eq_true_eq]
  · rfl

theorem compare_nil {body : Nat} : l.compare body [] = l := rfl

theorem compare_cons {body : Nat} {x : Expr} {xs : List Expr} :
    l.compare body (x :: xs) =
      (((l.fresh.emit x.key).follow [body, l.size]).goOn l.size).compare body xs := by
  rw [compare, List.foldl_cons]
  rfl

theorem compareTypes_nil {body : Nat} : l.compareTypes body [] = l := rfl

theorem compareTypes_cons {body : Nat} {x : Expr} {xs : List Expr} :
    l.compareTypes body (x :: xs) =
      ((l.fresh.follow [body, l.size]).goOn l.size).compareTypes body xs := by
  rw [compareTypes, List.foldl_cons]
  rfl

end Layout

namespace Moved

theorem emits (ks : List Key) :
    Moved ⟨known, kept, due, l⟩ ⟨known, kept, due, ks.foldl Layout.emit l⟩ fun g =>
      HoldAll g.blocks.toList ks l.here (ks.foldl Layout.emit l).here := by
  induction ks generalizing l with
  | nil => exact refl.mono fun _ _ => rfl
  | cons k ks ih => exact (emit.trans ih).mono fun g hg => ⟨_, hg⟩

/-- A block is ended, and an unreachable one is gone on in. -/
theorem follow_goOnFresh (ns : List Nat) :
    Moved ⟨known, kept, due, l⟩ ⟨known, kept, due, (l.follow ns).goOnFresh⟩ fun g =>
      Ends g.blocks.toList l.here ns := by
  refine of_ready fun hS => ?_
  have h : (l.follow ns).goOnFresh = (l.fresh.follow ns).goOn l.size := by
    rw [Layout.goOnFresh, Layout.size_follow, Layout.fresh_follow hS.current_lt]
  rw [h]
  refine (fresh.trans (turn (.refl _))).mono fun g hg => ?_
  rw [← hg.1]
  exact hg.2.1

theorem leap (n : Nat) :
    Moved ⟨known, kept, due, l⟩ ⟨known, kept, due, l.leap (some n)⟩ fun g =>
      Ends g.blocks.toList l.here [n] :=
  follow_goOnFresh [n]

theorem goOnFresh :
    Moved ⟨known, kept, due, l⟩ ⟨known, kept, due, l.goOnFresh⟩ fun g =>
      Ends g.blocks.toList l.here [] := by
  have h : Moved ⟨known, kept, due, l⟩ ⟨known, kept, due, (l.follow []).goOnFresh⟩ _ :=
    follow_goOnFresh []
  rwa [Layout.follow_nil] at h

/-- A condition is laid, and a block that was made for later is gone on in. -/
theorem branch {c : Expr} {yes no r : Nat} (h : kept.Perm (r :: kept')) :
    Moved ⟨known, kept, due, l⟩ ⟨known, kept', due, (l.branch c yes no).goOn r⟩ fun g =>
      CondLaid g.blocks.toList c l.here yes no ∧ ((l.branch c yes no).goOn r).here = .start r := by
  fun_induction Layout.branch l c yes no generalizing kept kept' r with
  | case1 l x _ y yes no ihx ihy =>
    refine (fresh.trans ((ihx (.refl _)).trans (ihy h))).mono ?_
    rintro g ⟨hfresh, ⟨hx, hmid⟩, hy, hr⟩
    rw [hfresh] at hx
    rw [hmid] at hy
    exact ⟨⟨_, hx, hy⟩, hr⟩
  | case2 l x _ y yes no ihx ihy =>
    refine (fresh.trans ((ihx (.refl _)).trans (ihy h))).mono ?_
    rintro g ⟨hfresh, ⟨hx, hmid⟩, hy, hr⟩
    rw [hfresh] at hx
    rw [hmid] at hy
    exact ⟨⟨_, hx, hy⟩, hr⟩
  | case3 l _ x yes no ih => exact ih h
  | case4 l _ x _ yes no ih => exact ih h
  | case5 l x yes no hand hor hnot hparen =>
    refine (emit.trans (turn h)).mono ?_
    rintro g ⟨hx, hends, hr⟩
    refine ⟨?_, hr⟩
    rw [CondLaid.eq_5 _ _ _ _ _ hand hor hnot hparen]
    exact ⟨_, hx, hends⟩

/-- The expressions of a clause are laid, and its statements come before what else is compared with. -/
theorem compare (body : Nat) (x : Expr) (xs : List Expr) :
    Moved ⟨known, body :: kept, due, l⟩
      ⟨known, (l.compare body (x :: xs)).current :: kept, due,
        (l.compare body (x :: xs)).goOn body⟩ fun g =>
      ComparesLaid g.blocks.toList body (x :: xs) l.here
          (.start (l.compare body (x :: xs)).current) ∧
        ((l.compare body (x :: xs)).goOn body).here = .start body := by
  induction xs generalizing l x with
  | nil =>
    rw [Layout.compare_cons, Layout.compare_nil, Layout.current_goOn, Layout.goOn_goOn]
    refine mono (trans fresh (trans emit (turn (.swap _ _ _)))) ?_
    rintro g ⟨hfresh, hx, hends, hbody⟩
    rw [hfresh] at hx
    exact ⟨⟨_, _, hx, hends, rfl⟩, hbody⟩
  | cons y ys ih =>
    rw [Layout.compare_cons]
    refine (fresh.trans (emit.trans ((turn (.refl _)).trans (ih y)))).mono ?_
    rintro g ⟨hfresh, hx, ⟨hends, hnext⟩, hys, hbody⟩
    rw [hfresh] at hx
    rw [hnext] at hys
    exact ⟨⟨_, _, hx, hends, hys⟩, hbody⟩

/-- The types of a clause are laid, and its statements come before what else is compared with. -/
theorem compareTypes (body : Nat) (x : Expr) (xs : List Expr) :
    Moved ⟨known, body :: kept, due, l⟩
      ⟨known, (l.compareTypes body (x :: xs)).current :: kept, due,
        (l.compareTypes body (x :: xs)).goOn body⟩ fun g =>
      CompareAllLaid g.blocks.toList body (x :: xs) l.here
          (.start (l.compareTypes body (x :: xs)).current) ∧
        ((l.compareTypes body (x :: xs)).goOn body).here = .start body := by
  induction xs generalizing l x with
  | nil =>
    rw [Layout.compareTypes_cons, Layout.compareTypes_nil, Layout.current_goOn, Layout.goOn_goOn]
    refine (fresh.trans (turn (.swap _ _ _))).mono ?_
    rintro g ⟨hfresh, hends, hbody⟩
    rw [hfresh] at hends
    exact ⟨⟨_, hends, rfl⟩, hbody⟩
  | cons y ys ih =>
    rw [Layout.compareTypes_cons]
    refine (fresh.trans ((turn (.refl _)).trans (ih y))).mono ?_
    rintro g ⟨hfresh, ⟨hends, hnext⟩, hys, hbody⟩
    rw [hfresh] at hends
    rw [hnext] at hys
    exact ⟨⟨_, hends, hys⟩, hbody⟩

end Moved

/-! ## Jumps -/

namespace Env

/-- Every jump that has a target leads to a block. -/
structure Covers (E : Env) (sc : Scope) : Prop where
  brk : sc.brk = true → ∃ b, E.brk = some b
  cont : sc.cont = true → ∃ b, E.cont = some b
  next : sc.fall = true → ∃ b, E.next = some b
  brks : ∀ x ∈ sc.brks, ∃ b, E.brks.lookup x = some b
  conts : ∀ x ∈ sc.conts, ∃ b, E.conts.lookup x = some b

/-- The blocks that jumps lead to are those that the layout holds. -/
structure Sees (E : Env) (j : Jumps) (known : String → Option Label) : Prop where
  brk : ∀ {b}, E.brk = some b → j.brk = some b
  cont : ∀ {b}, E.cont = some b → j.cont = some b
  next : ∀ {b}, E.next = some b → j.next = some b
  brks : ∀ {x b}, E.brks.lookup x = some b → ∃ d, known x = some d ∧ d.brk = some b
  conts : ∀ {x b}, E.conts.lookup x = some b → ∃ d, known x = some d ∧ d.cont = some b

end Env

variable {E : Env} {sc : Scope} {j : Jumps} {label : Option String} {labels : List String}

namespace Env.Covers

theorem inner (h : E.Covers sc) : E.Covers sc.inner :=
  { h with next := nofun }

theorem fallOnly (h : E.Covers sc) (fall : Bool) :
    E.Covers { sc with fall := sc.fall && fall } :=
  { h with next := fun hf => h.next (Bool.and_eq_true_iff.mp hf).1 }

theorem lookup {es : List (String × Nat)} {xs : List String} {x : String} {b : Nat}
    (h : ∀ x ∈ xs, ∃ b, es.lookup x = some b) (hx : x ∈ label.toList ++ xs) :
    ∃ b', (label.toList.map (·, b) ++ es).lookup x = some b' := by
  rw [Env.lookup_labelled]
  split
  · exact ⟨_, rfl⟩
  · rename_i hne
    refine h x ((List.mem_append.mp hx).resolve_left fun hx => hne ?_)
    exact Option.mem_toList.mp hx

theorem inLoop (h : E.Covers sc) (done again : Nat) :
    (E.inLoop label done again).Covers (sc.inLoop label) where
  brk _ := ⟨done, rfl⟩
  cont _ := ⟨again, rfl⟩
  next := nofun
  brks _ hx := lookup h.brks hx
  conts _ hx := lookup h.conts hx

theorem inClause (h : E.Covers sc) (done : Nat) {next : Option Nat} {fall : Bool}
    (hnext : fall = true → ∃ b, next = some b) :
    (E.inClause label done next).Covers (sc.inClause label fall) where
  brk _ := ⟨done, rfl⟩
  cont := h.cont
  next := hnext
  brks _ hx := lookup h.brks hx
  conts := h.conts

end Env.Covers

namespace Env.Sees

theorem inLoop (h : E.Sees j known) (hlabel : ∀ x ∈ label, ∃ d, known x = some d)
    (done again : Nat) : (E.inLoop label done again).Sees (j.inLoop done again)
      (Known.bind known label done (some again)) where
  brk := id
  cont := id
  next := nofun
  brks {x b} hx := by
    rw [Env.inLoop, Env.lookup_labelled] at hx
    split at hx
    next hl =>
      obtain ⟨d, hd⟩ := hlabel x hl
      exact ⟨_, Known.bind_of_eq hl hd, hx⟩
    next hl =>
      rw [Known.bind_of_ne hl]
      exact h.brks hx
  conts {x b} hx := by
    rw [Env.inLoop, Env.lookup_labelled] at hx
    split at hx
    next hl =>
      obtain ⟨d, hd⟩ := hlabel x hl
      exact ⟨_, Known.bind_of_eq hl hd, hx⟩
    next hl =>
      rw [Known.bind_of_ne hl]
      exact h.conts hx

theorem inClause {j' : Jumps} {done : Nat} {next : Option Nat} (h : E.Sees j known)
    (hlabel : ∀ x ∈ label, ∃ d, known x = some d) (hbrk : j'.brk = some done)
    (hcont : j'.cont = j.cont) (hnext : ∀ {b}, next = some b → j'.next = some b) :
    (E.inClause label done next).Sees j' (Known.bind known label done .none) where
  brk hb := hbrk.trans hb
  cont hb := hcont.trans (h.cont hb)
  next := hnext
  brks {x b} hx := by
    rw [Env.inClause, Env.lookup_labelled] at hx
    split at hx
    next hl =>
      obtain ⟨d, hd⟩ := hlabel x hl
      exact ⟨_, Known.bind_of_eq hl hd, hx⟩
    next hl =>
      rw [Known.bind_of_ne hl]
      exact h.brks hx
  conts {x b} hx := by
    obtain ⟨d, hd, hb⟩ := h.conts hx
    by_cases hl : label = some x
    · exact ⟨_, Known.bind_of_eq hl hd, hb⟩
    · exact ⟨d, (Known.bind_of_ne hl).trans hd, hb⟩

end Env.Sees

/-- A jump that has a target is laid. -/
theorem Moved.leave {word : Lexeme} {name : Option String}
    (hw : sc.resolves labels word name = true) (hE : E.Covers sc) (hj : E.Sees j known) :
    Moved ⟨known, kept, due, l⟩ ⟨known, kept, due, l.leave j word name⟩ fun g =>
      ∃ t, E.target (g.chart labels) word name = some t ∧ Ends g.blocks.toList l.here [t] := by
  -- The record of a label that stays is that of the layout.
  have hrecord {x : String} {d : Label} (hS : Stage.Ready ⟨known, kept, due, l⟩)
      (hd : known x = some d) : (l.declare x).label? x = some d ∧ l.declare x = l := by
    have h : l.label? x = some d := hS.known_eq hd
    exact ⟨by rw [Layout.declare_of_label? h, h], Layout.declare_of_label? h⟩
  unfold Scope.resolves at hw
  split at hw
  case h_1 =>
    obtain ⟨b, hb⟩ := hE.brk hw
    show Moved _ ⟨known, kept, due, l.leap j.brk⟩ _
    rw [hj.brk hb]
    exact (leap b).mono fun g hg => ⟨b, hb, hg⟩
  case h_2 x =>
    obtain ⟨b, hb⟩ := hE.brks x (List.contains_iff_mem.mp hw)
    obtain ⟨d, hd, hbrk⟩ := hj.brks hb
    refine of_ready fun hS => ?_
    show Moved _ ⟨known, kept, due, (l.declare x).leap (((l.declare x).label? x).bind (·.brk))⟩ _
    rw [(hrecord hS hd).1, (hrecord hS hd).2, Option.bind_some, hbrk]
    exact (leap b).mono fun g hg => ⟨b, hb, hg⟩
  case h_3 =>
    obtain ⟨b, hb⟩ := hE.cont hw
    show Moved _ ⟨known, kept, due, l.leap j.cont⟩ _
    rw [hj.cont hb]
    exact (leap b).mono fun g hg => ⟨b, hb, hg⟩
  case h_4 x =>
    obtain ⟨b, hb⟩ := hE.conts x (List.contains_iff_mem.mp hw)
    obtain ⟨d, hd, hcont⟩ := hj.conts hb
    refine of_ready fun hS => ?_
    show Moved _ ⟨known, kept, due, (l.declare x).leap (((l.declare x).label? x).bind (·.cont))⟩ _
    rw [(hrecord hS hd).1, (hrecord hS hd).2, Option.bind_some, hcont]
    exact (leap b).mono fun g hg => ⟨b, hb, hg⟩
  case h_5 =>
    obtain ⟨b, hb⟩ := hE.next hw
    show Moved _ ⟨known, kept, due, l.leap j.next⟩ _
    rw [hj.next hb]
    exact (leap b).mono fun g hg => ⟨b, hb, hg⟩
  case h_6 x =>
    obtain ⟨d, hd⟩ := Layout.exists_label?_declare l x
    show Moved _ ⟨known, kept, due, (l.declare x).leap (((l.declare x).label? x).map (·.goto))⟩ _
    rw [hd]
    refine (declare.trans (leap d.goto)).mono ?_
    rintro g ⟨⟨hhere, hgoto⟩, hends⟩
    rw [hhere] at hends
    refine ⟨d.goto, ?_, hends⟩
    show (if x ∈ labels then g.goto? x else none) = _
    rw [if_pos (List.contains_iff_mem.mp hw), hgoto d hd]
  case h_7 => cases hw

end LosslessGo.Flow
