import LosslessGo.Proofs.Flow.Clauses

/-!
# Statements in a layout

Every statement of a well-formed body is laid: its blocks are those that `Laid` speaks of, whatever is
laid out before and after it.

* `Lays` and `LaysOption` say so of a statement, as `LaysAll` does of a list. There is a lemma for each
  kind of statement, `Lays.ite` and so on.
* `blocksOf_laid` is about a whole body.
-/

namespace LosslessGo.Flow

open Go

/-- A label has a record, and is not one that jumps lead to. -/
structure Env.Carries (E : Env) (known : String → Option Label) (x : String) : Prop where
  record : ∃ d, known x = some d
  brks : E.brks.lookup x = .none
  conts : E.conts.lookup x = .none

/-- A statement is laid from any stage on, where its jumps have targets. The record of the label that it
carries changes. -/
structure Lays (labels : List String) (s : Stmt) : Prop where
  moved : ∀ {E : Env} {sc : Scope} {j : Jumps} {label : Option String} {known : String → Option Label}
    (kept : List Nat) (due : List String) (l : Layout),
    wellFormed labels sc label s = true → E.Covers sc → E.Sees j known →
      (∀ x ∈ label, E.Carries known x) →
        Moved ⟨known, kept, labelsOf s ++ due, l⟩
          ⟨Known.drop known label, kept, due, flow j label s l⟩ fun g =>
          Laid (g.chart labels) E label s l.here (flow j label s l).here

/-- An optional statement is laid from any stage on, where its jumps have targets. -/
structure LaysOption (labels : List String) (s : Option Stmt) : Prop where
  moved : ∀ {E : Env} {sc : Scope} {j : Jumps} {known : String → Option Label} (kept : List Nat)
    (due : List String) (l : Layout),
    wellFormedOption labels sc s = true → E.Covers sc → E.Sees j known →
      Moved ⟨known, kept, labelsOfOption s ++ due, l⟩ ⟨known, kept, due, flowOption j s l⟩ fun g =>
        LaidOption (g.chart labels) E s l.here (flowOption j s l).here

variable {labels : List String} {label : Option String} {E : Env} {j : Jumps}
  {known : String → Option Label} {kept : List Nat} {due : List String} {l : Layout}
  {pos lbrace rbrace : Pos} {s : Stmt} {ss cs : List Stmt} {init : Option Stmt}

theorem LaysOption.none : LaysOption labels none := by
  constructor
  intro E sc j known kept due l _ _ _
  rw [flowOption]
  exact Moved.refl.mono fun _ _ => by rw [LaidOption]

theorem LaysOption.some (h : Lays labels s) : LaysOption labels (some s) := by
  constructor
  intro E sc j known kept due l hw hE hj
  rw [wellFormedOption] at hw
  rw [flowOption]
  refine Moved.mono (h.moved _ _ _ hw hE hj (by rintro _ ⟨⟩)) fun g hg => ?_
  rw [LaidOption]
  exact hg

theorem LaysAll.nil : LaysAll labels [] := by
  constructor
  intro E sc j known kept due l _ _ _
  rw [flowAll]
  exact Moved.refl.mono fun _ _ => by rw [LaidAll]

theorem LaysAll.cons (hs : Lays labels s) (hss : LaysAll labels ss) : LaysAll labels (s :: ss) := by
  constructor
  intro E sc j known kept due l hw hE hj
  rw [wellFormedAll, Bool.and_eq_true] at hw
  rw [flowAll, labelsOfAll, List.append_assoc]
  refine Moved.mono (.trans (hs.moved _ _ _ hw.1 (hE.fallOnly _) hj (by rintro _ ⟨⟩))
    (hss.moved _ _ _ hw.2 hE hj)) fun g hg => ?_
  rw [LaidAll]
  exact ⟨_, hg⟩

namespace Moved

/-- The record of a label is not needed any more. -/
theorem forget {brk : Nat} {cont : Option Nat} :
    Moved ⟨Known.bind known label brk cont, kept, due, l⟩ ⟨Known.drop known label, kept, due, l⟩
      fun _ => True := by
  refine reorder (.refl _) (.refl _) fun x d h => ?_
  obtain ⟨hne, hx⟩ := Known.drop_eq_some_iff.mp h
  rw [Known.bind_of_ne hne, hx]

theorem forget_same :
    Moved ⟨known, kept, due, l⟩ ⟨Known.drop known label, kept, due, l⟩ fun _ => True :=
  reorder (.refl _) (.refl _) fun _ _ h => (Known.drop_eq_some_iff.mp h).2

end Moved

namespace Env.Sees

/-- A label without a record is not one that jumps lead to. -/
theorem carries {x : String} {d : Label} (h : E.Sees j known) (hx : known x = .none) :
    E.Carries (Function.update known x (some d)) x where
  record := ⟨d, Function.update_self ..⟩
  brks := by
    cases hb : E.brks.lookup x with
    | none => rfl
    | some b =>
      obtain ⟨d, hd, -⟩ := h.brks hb
      cases hx.symm.trans hd
  conts := by
    cases hb : E.conts.lookup x with
    | none => rfl
    | some b =>
      obtain ⟨d, hd, -⟩ := h.conts hb
      cases hx.symm.trans hd

theorem drop (h : E.Sees j known) (hlabel : ∀ x ∈ label, E.Carries known x) :
    E.Sees j (Known.drop known label) :=
  { h with
    brks := fun {x b} hb => by
      obtain ⟨d, hd, hbrk⟩ := h.brks hb
      refine ⟨d, Known.drop_eq_some_iff.mpr ⟨fun hx => ?_, hd⟩, hbrk⟩
      cases (hlabel x hx).brks.symm.trans hb
    conts := fun {x b} hb => by
      obtain ⟨d, hd, hcont⟩ := h.conts hb
      refine ⟨d, Known.drop_eq_some_iff.mpr ⟨fun hx => ?_, hd⟩, hcont⟩
      cases (hlabel x hx).conts.symm.trans hb }

theorem update {x : String} {d : Label} (h : E.Sees j known) (hx : known x = .none) :
    E.Sees j (Function.update known x (some d)) := by
  have hne {y : String} {d' : Label} (hy : known y = some d') :
      Function.update known x (some d) y = some d' := by
    rw [Function.update_of_ne, hy]
    intro hyx
    rw [hyx, hx] at hy
    cases hy
  exact { h with
    brks := fun hb => (h.brks hb).imp fun _ hd => ⟨hne hd.1, hd.2⟩
    conts := fun hb => (h.conts hb).imp fun _ hd => ⟨hne hd.1, hd.2⟩ }

end Env.Sees

namespace Lays

/-! ## Simple statements and jumps -/

theorem of_isSimple (h : isSimple s = true) : Lays labels s := by
  constructor
  intro E sc j label known kept due l _ _ _ _
  rw [labelsOf_of_isSimple h, List.nil_append, flow_of_isSimple h]
  exact .mono (.trans .emit .forget_same) fun g hg => laid_of_isSimple h hg.1

theorem decl (d : GenDecl) : Lays labels (.decl d) := by
  constructor
  intro E sc j label known kept due l _ _ _ _
  rw [flow, Layout.emitVars_eq]
  refine .mono (.trans (.emits _) .forget_same) fun g hg => ?_
  rw [Laid]
  exact hg.1

theorem ret (results : List Expr) : Lays labels (.ret pos results) := by
  constructor
  intro E sc j label known kept due l _ _ _ _
  rw [flow]
  refine .mono (.trans .emit (.trans .goOnFresh .forget_same)) fun g hg => ?_
  rw [Laid]
  exact ⟨_, hg.1, hg.2.1⟩

theorem branch (word : Lexeme) (name : Option Ident) : Lays labels (.branch pos word name) := by
  constructor
  intro E sc j label known kept due l hw hE hj _
  rw [wellFormed] at hw
  rw [flow]
  refine .mono (.trans (.leave hw hE hj) .forget_same) fun g hg => ?_
  rw [Laid]
  exact hg.1

theorem labeled (x : Ident) (h : Lays labels s) : Lays labels (.labeled x pos s) := by
  constructor
  intro E sc j label known kept due l hw hE hj _
  rw [wellFormed] at hw
  rw [labelsOf, List.cons_append]
  refine .of_ready fun hS => ?_
  have hx : known x.name = none := by
    cases h : known x.name with
    | none => rfl
    | some d => exact absurd List.mem_cons_self (hS.known_not_due h)
  obtain ⟨d, hd⟩ := Layout.exists_label?_declare l x.name
  have hflow : flow j label (.labeled x pos s) l =
      flow j (some x.name) s (((l.declare x.name).jump d.goto).goOn d.goto) := by
    rw [flow, hd]
    rfl
  have hinner : Moved
      ⟨Function.update known x.name (some d), kept, labelsOf s ++ due,
        ((l.declare x.name).jump d.goto).goOn d.goto⟩
      ⟨Known.drop (Function.update known x.name (some d)) (some x.name), kept, due,
        flow j (some x.name) s (((l.declare x.name).jump d.goto).goOn d.goto)⟩ _ :=
    h.moved _ _ _ hw hE (hj.update hx) (by rintro _ ⟨⟩; exact hj.carries hx)
  have hforget : Moved
      ⟨Known.drop (Function.update known x.name (some d)) (some x.name), kept, due,
        flow j label (.labeled x pos s) l⟩
      ⟨Known.drop known label, kept, due, flow j label (.labeled x pos s) l⟩ fun _ => True := by
    refine .reorder (.refl _) (.refl _) fun y d' hy => ?_
    have hyd := (Known.drop_eq_some_iff.mp hy).2
    have hne : y ≠ x.name := by
      intro hyx
      rw [hyx, hx] at hyd
      cases hyd
    rw [Known.drop_eq_some_iff, Function.update_of_ne hne]
    exact ⟨fun h => hne (Option.some.inj h).symm, hyd⟩
  rw [hflow] at hforget ⊢
  refine .mono (.trans .declare (.trans (.land hd) (.trans hinner hforget))) ?_
  rintro g ⟨⟨hhere, hgoto⟩, ⟨hends, hstart⟩, hlaid, -⟩
  rw [hhere] at hends
  rw [hstart] at hlaid
  rw [Laid]
  exact ⟨_, hgoto d hd, hends, hlaid⟩

/-! ## Blocks and branches -/

theorem block (hbody : LaysAll labels ss) : Lays labels (.block ⟨lbrace, ss, rbrace⟩) := by
  constructor
  intro E sc j label known kept due l hw hE hj _
  rw [wellFormed] at hw
  rw [flow, labelsOf]
  refine .mono (.trans (hbody.moved _ _ _ hw hE.inner hj) .forget_same) fun g hg => ?_
  rw [Laid]
  exact hg.1

theorem ite (c : Expr) {otherwise : Option Stmt} (hinit : LaysOption labels init)
    (hbody : LaysAll labels ss) (hother : LaysOption labels otherwise) :
    Lays labels (.ite pos init c ⟨lbrace, ss, rbrace⟩ otherwise) := by
  constructor
  intro E sc j label known kept due l hw hE hj _
  rw [wellFormed, Bool.and_eq_true, Bool.and_eq_true] at hw
  obtain ⟨⟨hwi, hwb⟩, hwo⟩ := hw
  have hinit {kept due l} := hinit.moved kept due l hwi hE.inner hj
  have hbody {kept due l} := hbody.moved kept due l hwb hE.inner hj
  rw [labelsOf, List.append_assoc, List.append_assoc]
  cases otherwise with
  | none =>
    rw [flow]
    refine .mono (.trans hinit (.trans .fresh (.trans (.fresh_of Layout.size_fresh) (.trans
      (.branch (.swap _ _ _)) (.trans hbody (.trans (.jump (.refl _)) .forget_same)))))) ?_
    rintro g ⟨hinit, hf, hf', ⟨hcond, hyes⟩, hbody, ⟨hends, hdone⟩, -⟩
    rw [hf', hf] at hcond
    rw [hyes] at hbody
    rw [Laid]
    exact ⟨_, _, _, _, hinit, hcond, ⟨_, hbody, hends⟩, by rw [LaidVia], hdone⟩
  | some other =>
    have hother {kept due l} := hother.moved kept due l hwo hE.inner hj
    simp only [flowOption] at hother
    rw [flow]
    refine .mono (.trans hinit (.trans .fresh (.trans (.fresh_of Layout.size_fresh) (.trans
      (.fresh_of (by rw [Layout.size_fresh, Layout.size_fresh])) (.trans
        (.branch (((List.Perm.swap _ _ _).cons _).trans (.swap _ _ _))) (.trans hbody (.trans
          (.jump (.refl _)) (.trans hother (.trans (.jump (.refl _)) .forget_same))))))))) ?_
    rintro g ⟨hinit, hf, hf', hf'', ⟨hcond, hyes⟩, hbody, ⟨hends, hno⟩, hother, ⟨hends', hdone⟩, -⟩
    rw [hf'', hf', hf] at hcond
    rw [hyes] at hbody
    rw [hno, LaidOption] at hother
    rw [Laid]
    exact ⟨_, _, _, _, hinit, hcond, ⟨_, hbody, hends⟩, by rw [LaidVia]; exact ⟨_, hother, hends'⟩,
      hdone⟩

/-! ## Clauses -/

/-- The layout of a switch whose cases are laid out already. -/
theorem flow_switch {tag : Option Expr} {l₁ l₂ : Layout} {last : Option (Nat × Nat)}
    (hl₁ : l₁ = (tag.map (·.key)).toList.foldl Layout.emit (flowOption j init l))
    (hcases : flowCases j l₁.size cs none none (l₁.fresh.bind label l₁.size none) = (l₂, last)) :
    flow j label (.switch pos init tag ⟨lbrace, cs, rbrace⟩) l =
      ((match last with
        | some (body, next) =>
          (flowDefault (j.inCase l₁.size next) cs ((l₂.jump body).goOn body)).getD l₂
        | none => l₂).jump l₁.size).goOn l₁.size := by
  cases tag with
  | none =>
    obtain rfl : l₁ = flowOption j init l := hl₁
    cases last <;> simp only [flow, hcases]
  | some x =>
    obtain rfl : l₁ = (flowOption j init l).emit x.key := hl₁
    cases last <;> simp only [flow, hcases]

theorem switch (tag : Option Expr) (hinit : LaysOption labels init)
    (hss : ∀ {pos exprs colon ss}, .caseClause pos exprs colon ss ∈ cs → LaysAll labels ss) :
    Lays labels (.switch pos init tag ⟨lbrace, cs, rbrace⟩) := by
  constructor
  intro E sc j label known kept due l hw hE hj hcarries
  have hlabel x hx := (hcarries x hx).record
  rw [wellFormed, Bool.and_eq_true, Bool.and_eq_true, decide_eq_true_eq] at hw
  obtain ⟨⟨hwi, hone⟩, hwc⟩ := hw
  obtain ⟨l₁, hl₁⟩ : ∃ l₁, l₁ = (tag.map (·.key)).toList.foldl Layout.emit (flowOption j init l) :=
    ⟨_, rfl⟩
  obtain ⟨l₂, last, hcases⟩ : ∃ l₂ last,
      flowCases j l₁.size cs none none (l₁.fresh.bind label l₁.size none) = (l₂, last) := ⟨_, _, rfl⟩
  rw [flow_switch hl₁ hcases, labelsOf, List.append_assoc]
  have hemits {kept due} : Moved ⟨known, kept, due, flowOption j init l⟩
      ⟨known, kept, due, (tag.map (·.key)).toList.foldl Layout.emit (flowOption j init l)⟩ _ :=
    .emits _
  rw [← hl₁] at hemits
  refine .mono (.trans (hinit.moved _ _ _ hwi hE.inner hj) (.trans hemits (.trans .fresh (.trans (.bind hlabel)
    (.trans (.switchClauses hss hwc hone hE
      (fun h => hj.inClause hlabel rfl rfl fun hb => congrArg some (h _ hb)) hcases) .forget))))) ?_
  rintro g ⟨hinit, htag, hf, hbind, ⟨⟨bodies, hexprs, hends, hbodies⟩, hdone⟩, -⟩
  rw [hbind, hf] at hexprs
  rw [Laid]
  exact ⟨_, _, _, _, _, hinit, htag, hexprs, hends, hbodies, hdone⟩

theorem typeSwitch {assign : Stmt} (hinit : LaysOption labels init) (hassign : Lays labels assign)
    (hss : ∀ {pos exprs colon ss}, .caseClause pos exprs colon ss ∈ cs → LaysAll labels ss) :
    Lays labels (.typeSwitch pos init assign ⟨lbrace, cs, rbrace⟩) := by
  constructor
  intro E sc j label known kept due l hw hE hj hcarries
  have hlabel x hx := (hcarries x hx).record
  simp only [wellFormed, Bool.and_eq_true, decide_eq_true_eq] at hw
  obtain ⟨⟨⟨hwi, hwa⟩, hone⟩, hwc⟩ := hw
  have hassign {kept due l} := (LaysOption.some hassign).moved kept due l hwa hE.inner hj
  simp only [labelsOfOption, flowOption] at hassign
  rw [flow, labelsOf, List.append_assoc, List.append_assoc]
  refine .mono (.trans (hinit.moved _ _ _ hwi hE.inner hj) (.trans hassign (.trans .fresh (.trans (.bind hlabel)
    (.trans (.typeClauses hss hwc hone (hE.inClause _ (by rintro ⟨⟩))
      (hj.inClause hlabel rfl rfl (by rintro _ ⟨⟩)) rfl)
      .forget))))) ?_
  rintro g ⟨hinit, hassign, hf, hbind, ⟨⟨m, htypes, hdefault⟩, hdone⟩, -⟩
  rw [hbind, hf] at htypes
  rw [LaidOption] at hassign
  rw [Laid]
  exact ⟨_, _, _, _, hinit, hassign, htypes, hdefault, hdone⟩

theorem select (hss : ∀ {pos comm colon ss}, .commClause pos comm colon ss ∈ cs → LaysAll labels ss) :
    Lays labels (.select pos ⟨lbrace, cs, rbrace⟩) := by
  constructor
  intro E sc j label known kept due l hw hE hj hcarries
  have hlabel x hx := (hcarries x hx).record
  rw [wellFormed, Bool.and_eq_true, decide_eq_true_eq] at hw
  obtain ⟨hone, hwc⟩ := hw
  rw [flow, labelsOf]
  refine .mono (.trans (.comms (E := E) hwc) (.trans .fresh (.trans (.bind hlabel) (.trans
    (.selectClauses hss hwc hone (hE.inClause _ (by rintro ⟨⟩))
      (hj.inClause hlabel rfl rfl (by rintro _ ⟨⟩)) rfl)
      .forget)))) ?_
  rintro g ⟨hcomms, hf, hbind, ⟨⟨m, hcases, hdefault⟩, hdone⟩, -⟩
  rw [hbind, hf] at hcases
  rw [Laid]
  exact ⟨_, _, _, hcomms, hcases, hdefault, hdone⟩

end Lays

/-! ## Loops -/

/-- A block for an optional part of a loop, which is another one where there is no such part. -/
def Layout.freshFor {α : Type} (l : Layout) (part : Option α) (otherwise : Nat) : Nat × Layout :=
  match part with
  | none => (otherwise, l)
  | some _ => (l.size, l.fresh)

namespace Moved

theorem freshFor {α : Type} {part : Option α} {otherwise n : Nat} {l' : Layout}
    (known : String → Option Label) (kept : List Nat) (due : List String)
    (h : l.freshFor part otherwise = (n, l')) :
    (part = none → n = otherwise) ∧
      Moved ⟨known, kept, due, l⟩ ⟨known, (part.toList.map fun _ => n) ++ kept, due, l'⟩ fun _ =>
        l'.here = l.here := by
  cases part with
  | none =>
    cases h
    exact ⟨fun _ => rfl, refl.mono fun _ _ => rfl⟩
  | some x =>
    cases h
    exact ⟨nofun, fresh⟩

end Moved

/-- The layout behind the head of a loop. -/
def Layout.enterLoop (l : Layout) (c : Option Expr) (again body done : Nat) : Layout :=
  match c with
  | none => (l.jump again).goOn again
  | some x => (((l.jump again).goOn again).branch x body done).goOn body

/-- The layout behind a loop, from the end of its body on. -/
def Layout.leaveLoop (l : Layout) (j : Jumps) (post : Option Stmt) (again cont done : Nat) : Layout :=
  match post with
  | none => (l.jump cont).goOn done
  | some p => ((flow j none p ((l.jump cont).goOn cont)).jump again).goOn done

namespace Moved

/-- The head of a loop is laid, and the body is gone on in. -/
theorem loopHead {again body done : Nat} {c : Option Expr} {kept' : List Nat}
    (hagain : c = none → again = body) :
    Moved ⟨known, kept' ++ ((c.toList.map fun _ => again) ++ (done :: body :: kept)), due, l⟩
      ⟨known, kept' ++ done :: kept, due, l.enterLoop c again body done⟩ fun g =>
      Ends g.blocks.toList l.here [again] ∧ GuardLaid g.blocks.toList again body done (.ofCond c) ∧
        (l.enterLoop c again body done).here = .start body := by
  have hbody : (kept' ++ done :: body :: kept).Perm (body :: (kept' ++ done :: kept)) :=
    ((List.Perm.swap body done kept).append_left kept').trans List.perm_middle
  cases c with
  | none =>
    obtain rfl := hagain rfl
    exact (jump hbody).mono fun g hg => ⟨hg.1, rfl, hg.2⟩
  | some x =>
    refine mono (trans (jump List.perm_middle) (branch hbody)) ?_
    rintro g ⟨⟨hends, hstart⟩, hcond, hbody⟩
    rw [hstart] at hcond
    exact ⟨hends, hcond, hbody⟩

/-- What follows a round is laid, and what follows the loop is gone on in. -/
theorem loopTail {again cont done : Nat} {post : Option Stmt} {sc : Scope}
    (hpost : LaysOption labels post) (hw : wellFormedOption labels sc post = true) (hE : E.Covers sc)
    (hj : E.Sees j known) (hcont : post = none → cont = again) :
    Moved ⟨known, (post.toList.map fun _ => cont) ++ (done :: kept), labelsOfOption post ++ due, l⟩
      ⟨known, kept, due, l.leaveLoop j post again cont done⟩ fun g =>
      Ends g.blocks.toList l.here [cont] ∧ LaidVia (g.chart labels) E post cont again ∧
        (l.leaveLoop j post again cont done).here = .start done := by
  have hpost {kept due l} := hpost.moved kept due l hw hE hj
  cases post with
  | none =>
    obtain rfl := hcont rfl
    exact (jump (.refl _)).mono fun g hg => ⟨hg.1, by rw [LaidVia], hg.2⟩
  | some p =>
    simp only [flowOption] at hpost
    refine mono (trans (jump (.refl _)) (trans hpost (jump (.refl _)))) ?_
    rintro g ⟨⟨hends, hstart⟩, hlaid, hout, hdone⟩
    rw [hstart, LaidOption] at hlaid
    rw [LaidVia]
    exact ⟨hends, ⟨_, hlaid, hout⟩, hdone⟩

end Moved

/-- The layout of a loop whose blocks are made already. -/
theorem flow_forLoop {c : Option Expr} {post : Option Stmt} {l₁ l₂ l₃ : Layout} {again cont : Nat}
    (hl₁ : flowOption j init l = l₁) (hagain : l₁.fresh.fresh.freshFor c l₁.size = (again, l₂))
    (hcont : l₂.freshFor post again = (cont, l₃)) :
    flow j label (.forLoop pos init c post ⟨lbrace, ss, rbrace⟩) l =
      (flowAll (j.inLoop (l₁.size + 1) cont) ss ((l₃.bind label (l₁.size + 1) (some cont)).enterLoop c
        again l₁.size (l₁.size + 1))).leaveLoop j post again cont (l₁.size + 1) := by
  cases hl₁
  cases c <;> cases hagain <;> cases post <;> cases hcont <;> rw [flow] <;> rfl

theorem Lays.forLoop (c : Option Expr) {post : Option Stmt} (hinit : LaysOption labels init)
    (hbody : LaysAll labels ss) (hpost : LaysOption labels post) :
    Lays labels (.forLoop pos init c post ⟨lbrace, ss, rbrace⟩) := by
  constructor
  intro E sc j label known kept due l hw hE hj hcarries
  have hlabel x hx := (hcarries x hx).record
  rw [wellFormed, Bool.and_eq_true, Bool.and_eq_true] at hw
  obtain ⟨⟨hwi, hwb⟩, hwp⟩ := hw
  obtain ⟨l₁, hl₁⟩ : ∃ l₁, flowOption j init l = l₁ := ⟨_, rfl⟩
  obtain ⟨again, l₂, hagain⟩ : ∃ again l₂, l₁.fresh.fresh.freshFor c l₁.size = (again, l₂) :=
    ⟨_, _, rfl⟩
  obtain ⟨cont, l₃, hcont⟩ : ∃ cont l₃, l₂.freshFor post again = (cont, l₃) := ⟨_, _, rfl⟩
  have hinit {kept due} := hinit.moved kept due l hwi hE.inner hj
  rw [hl₁] at hinit
  rw [flow_forLoop hl₁ hagain hcont, labelsOf, List.append_assoc, List.append_assoc]
  obtain ⟨hnone, hfreshAgain⟩ := Moved.freshFor known ((l₁.size + 1) :: l₁.size :: kept)
    (labelsOfAll ss ++ (labelsOfOption post ++ due)) hagain
  obtain ⟨hnone', hfreshCont⟩ := Moved.freshFor known
    ((c.toList.map fun _ => again) ++ ((l₁.size + 1) :: l₁.size :: kept))
    (labelsOfAll ss ++ (labelsOfOption post ++ due)) hcont
  have hsees := hj.inLoop hlabel (l₁.size + 1) cont
  refine .mono (.trans hinit (.trans .fresh (.trans (.fresh_of Layout.size_fresh) (.trans hfreshAgain
    (.trans hfreshCont (.trans (.bind hlabel) (.trans (.loopHead hnone) (.trans
      (hbody.moved _ _ _ hwb (hE.inLoop _ _) hsees) (.trans .forget
        (.loopTail hpost hwp hE.inner (hj.drop hcarries) hnone')))))))))) ?_
  rintro g ⟨hinit, hf, hf', hagain, hcont, hbind, ⟨hends, hguard, hstart⟩, hbody, -, hout, hpost, hdone⟩
  rw [hbind, hcont, hagain, hf', hf] at hends
  rw [hstart] at hbody
  rw [Laid]
  exact ⟨_, _, _, _, _, hinit, hends, hguard, ⟨_, hbody, hout⟩, hpost, hdone⟩

/-- The layout of a loop over a range whose blocks are made already. -/
theorem flow_range {key value : Option Expr} {opPos : Option Pos} {op : Option Lexeme}
    {rangePos : Pos} {x : Expr} {l₁ l₂ : Layout}
    (hl₁ : (rangeKeys key value x).foldl Layout.emit l = l₁)
    (hl₂ : ((l₁.fresh.jump l₁.size).goOn l₁.size).fresh.fresh = l₂) :
    flow j label (.range pos key value opPos op rangePos x ⟨lbrace, ss, rbrace⟩) l =
      ((flowAll (j.inLoop (l₁.size + 1 + 1) l₁.size) ss
        (((l₂.follow [l₁.size + 1, l₁.size + 1 + 1]).goOn (l₁.size + 1)).bind label (l₁.size + 1 + 1)
          (some l₁.size))).jump l₁.size).goOn (l₁.size + 1 + 1) := by
  cases hl₂
  cases hl₁
  cases key <;> cases value <;> rw [flow] <;> rfl

theorem Lays.range (key value : Option Expr) (opPos : Option Pos) (op : Option Lexeme)
    (rangePos : Pos) (x : Expr) (hbody : LaysAll labels ss) :
    Lays labels (.range pos key value opPos op rangePos x ⟨lbrace, ss, rbrace⟩) := by
  constructor
  intro E sc j label known kept due l hw hE hj hcarries
  have hlabel x hx := (hcarries x hx).record
  rw [wellFormed] at hw
  obtain ⟨l₁, hl₁⟩ : ∃ l₁, (rangeKeys key value x).foldl Layout.emit l = l₁ := ⟨_, rfl⟩
  obtain ⟨l₂, hl₂⟩ : ∃ l₂, ((l₁.fresh.jump l₁.size).goOn l₁.size).fresh.fresh = l₂ := ⟨_, rfl⟩
  have hkeys {kept due} : Moved ⟨known, kept, due, l⟩
      ⟨known, kept, due, (rangeKeys key value x).foldl Layout.emit l⟩ _ :=
    .emits _
  rw [hl₁] at hkeys
  have hsize : ((l₁.fresh.jump l₁.size).goOn l₁.size).size = l₁.size + 1 := by
    rw [Layout.size_goOn, Layout.jump, Layout.size_follow, Layout.size_fresh]
  have hfresh : Moved ⟨known, kept, labelsOfAll ss ++ due, (l₁.fresh.jump l₁.size).goOn l₁.size⟩
      ⟨known, (l₁.size + 1 + 1) :: (l₁.size + 1) :: kept, labelsOfAll ss ++ due, l₂⟩ fun _ =>
      l₂.here = ((l₁.fresh.jump l₁.size).goOn l₁.size).here := by
    rw [← hl₂]
    refine .mono (.trans (.fresh_of hsize) (.fresh_of (by rw [Layout.size_fresh, hsize]))) ?_
    exact fun g hg => hg.2.trans hg.1
  rw [flow_range hl₁ hl₂, labelsOf]
  refine .mono (.trans hkeys (.trans .fresh (.trans (.jump (.refl _)) (.trans hfresh (.trans
    (.turn (.swap _ _ _)) (.trans (.bind hlabel) (.trans
      (hbody.moved _ _ _ hw (hE.inLoop _ _) (hj.inLoop hlabel _ _)) (.trans (.jump (.refl _)) .forget)))))))) ?_
  rintro g ⟨hkeys, hf, ⟨hends, hagain⟩, hfresh, ⟨hfork, hstart⟩, hbind, hbody, ⟨hout, hdone⟩, -⟩
  rw [hf] at hends
  rw [hfresh, hagain] at hfork
  rw [hbind, hstart] at hbody
  rw [Laid]
  exact ⟨_, _, _, _, hkeys, hends, hfork, ⟨_, hbody, hout⟩, hdone⟩

/-! ## All statements -/

/-- The statements of all clauses are laid. -/
structure LaysClauses (labels : List String) (cs : List Stmt) : Prop where
  cases : ∀ {pos exprs colon ss}, .caseClause pos exprs colon ss ∈ cs → LaysAll labels ss
  comms : ∀ {pos comm colon ss}, .commClause pos comm colon ss ∈ cs → LaysAll labels ss

theorem LaysClauses.cons {c : Stmt} (h : LaysClauses labels cs)
    (hcase : ∀ {pos exprs colon ss}, c = .caseClause pos exprs colon ss → LaysAll labels ss)
    (hcomm : ∀ {pos comm colon ss}, c = .commClause pos comm colon ss → LaysAll labels ss) :
    LaysClauses labels (c :: cs) where
  cases hc := (List.mem_cons.mp hc).elim (fun hc => hcase hc.symm) h.cases
  comms hc := (List.mem_cons.mp hc).elim (fun hc => hcomm hc.symm) h.comms

mutual

theorem lays (labels : List String) (s : Stmt) : Lays labels s := by
  match s with
  | .bad .. | .send .. | .incDec .. | .go .. | .defer .. | .empty .. | .assign .. | .expr _ =>
    exact Lays.of_isSimple rfl
  | .decl d => exact Lays.decl d
  | .labeled x _ inner => exact Lays.labeled x (lays labels inner)
  | .ret _ results => exact Lays.ret results
  | .branch _ word name => exact Lays.branch word name
  | .block ⟨_, ss, _⟩ => exact Lays.block (laysAll labels ss)
  | .ite _ init c ⟨_, ss, _⟩ otherwise =>
    exact Lays.ite c (laysOption labels init) (laysAll labels ss) (laysOption labels otherwise)
  | .switch _ init tag ⟨_, cs, _⟩ =>
    exact Lays.switch tag (laysOption labels init) (laysClauses labels cs).cases
  | .typeSwitch _ init assign ⟨_, cs, _⟩ =>
    exact Lays.typeSwitch (laysOption labels init) (lays labels assign) (laysClauses labels cs).cases
  | .select _ ⟨_, cs, _⟩ => exact Lays.select (laysClauses labels cs).comms
  | .forLoop _ init c post ⟨_, ss, _⟩ =>
    exact Lays.forLoop c (laysOption labels init) (laysAll labels ss) (laysOption labels post)
  | .range _ key value opPos op rangePos x ⟨_, ss, _⟩ =>
    exact Lays.range key value opPos op rangePos x (laysAll labels ss)
  | .caseClause .. | .commClause .. =>
    constructor
    intro E sc j label known kept due l hw
    rw [wellFormed] at hw
    cases hw

theorem laysOption (labels : List String) (s : Option Stmt) : LaysOption labels s := by
  match s with
  | none => exact LaysOption.none
  | some s => exact LaysOption.some (lays labels s)

theorem laysAll (labels : List String) (ss : List Stmt) : LaysAll labels ss := by
  match ss with
  | [] => exact LaysAll.nil
  | s :: ss => exact LaysAll.cons (lays labels s) (laysAll labels ss)

theorem laysClauses (labels : List String) (cs : List Stmt) : LaysClauses labels cs := by
  match cs with
  | [] => exact ⟨nofun, nofun⟩
  | .caseClause _ _ _ ss :: cs =>
    exact (laysClauses labels cs).cons (by rintro _ _ _ _ ⟨⟩; exact laysAll labels ss) nofun
  | .commClause _ _ _ ss :: cs =>
    exact (laysClauses labels cs).cons nofun (by rintro _ _ _ _ ⟨⟩; exact laysAll labels ss)
  | .bad .. :: cs | .send .. :: cs | .incDec .. :: cs | .go .. :: cs | .defer .. :: cs
  | .empty .. :: cs | .assign .. :: cs | .expr _ :: cs | .decl _ :: cs | .labeled .. :: cs
  | .ret .. :: cs | .branch .. :: cs | .block _ :: cs | .ite .. :: cs | .switch .. :: cs
  | .typeSwitch .. :: cs | .select .. :: cs | .forLoop .. :: cs | .range .. :: cs =>
    exact (laysClauses labels cs).cons nofun nofun

end

/-! ## Bodies -/

/-- The finished layout of a body. -/
def layoutOf (body : Go.Block) : Layout := flowAll .none body.stmts .start

/-- The blocks and the labels of a body. -/
def chartOf (body : Go.Block) : Chart := (layoutOf body).chart (labelsOfAll body.stmts)

theorem ready_start {labels : List String} (h : labels.Nodup) :
    Stage.Ready ⟨fun _ => none, [], labels, .start⟩ := by
  have hwaits {b} : ¬Stage.Waits ⟨fun _ => none, [], labels, .start⟩ b := by
    rintro (h | ⟨x, -, h⟩)
    · cases h
    · cases h
  exact {
    current_lt := Nat.zero_lt_one
    unended := rfl
    lt := fun h => absurd h hwaits
    ne_current := fun h => absurd h hwaits
    empty := fun h => absurd h hwaits
    kept_nodup := .nil
    due_nodup := h
    kept_ne_goto := nofun
    goto_inj := nofun
    known_eq := nofun
    known_not_due := nofun }

/-- The statements of a well-formed body stand in its blocks from the start of block 0 to the end of a
block without successors. -/
theorem blocksOf_laid {body : Go.Block} (h : WellFormed body) :
    ∃ q, LaidAll (chartOf body) .none body.stmts (.start 0) q ∧ Ends (blocksOf body) q [] := by
  have hcovers : Env.none.Covers .none := ⟨nofun, nofun, nofun, nofun, nofun⟩
  have hsees : Env.none.Sees .none fun _ => none := ⟨nofun, nofun, nofun, nofun, nofun⟩
  have hmoved := (laysAll (labelsOfAll body.stmts) body.stmts).moved [] [] .start h.2 hcovers hsees
  rw [List.append_nil] at hmoved
  obtain ⟨hready, hg⟩ := hmoved (ready_start h.1)
  obtain ⟨-, hlaid⟩ := hg (layoutOf body) ⟨fun _ _ _ => rfl, List.prefix_rfl, id⟩
  exact ⟨(layoutOf body).here, hlaid, rfl, hready.unended⟩

end LosslessGo.Flow
