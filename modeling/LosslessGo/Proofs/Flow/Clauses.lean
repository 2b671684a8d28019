import LosslessGo.Proofs.Flow.Pieces

/-!
# Clauses in a layout

The clauses of a `switch` are laid in two steps, those with expressions first and the default last,
though each falls into the one behind it in the source. The block of the default is kept between the
steps.

* `LaysAll` says that the statements of a clause are laid wherever they stand.
* `Moved.cases` and `Moved.default` are the two steps of a `switch`.
* `Moved.typeCases` and `Moved.defaultType` are those of a type switch, `Moved.comms`,
  `Moved.commCases` and `Moved.defaultComm` those of a `select`.
-/

namespace LosslessGo.Flow

open Go

/-- Statements are laid from any stage on, where their jumps have targets. -/
structure LaysAll (labels : List String) (ss : List Stmt) : Prop where
  moved : ∀ {E : Env} {sc : Scope} {j : Jumps} {known : String → Option Label} (kept : List Nat)
    (due : List String) (l : Layout),
    wellFormedAll labels sc ss = true → E.Covers sc → E.Sees j known →
      Moved ⟨known, kept, labelsOfAll ss ++ due, l⟩ ⟨known, kept, due, flowAll j ss l⟩ fun g =>
        LaidAll (g.chart labels) E ss l.here (flowAll j ss l).here

variable {labels : List String} {label : Option String} {sc : Scope} {E : Env} {j : Jumps}
  {known : String → Option Label} {kept : List Nat} {due : List String} {l : Layout}
  {done : Nat} {cs : List Stmt}

/-! ## Parts of clauses -/

theorem labelsOfAll_eq_flatMap (ss : List Stmt) : labelsOfAll ss = ss.flatMap labelsOf := by
  induction ss with
  | nil => rfl
  | cons s ss ih => rw [labelsOfAll, ih, List.flatMap_cons]

theorem flow_of_isSimple {s : Stmt} (h : isSimple s = true) : flow j label s l = l.emit s.key := by
  cases s <;> first | (simp [isSimple] at h; done) | rw [flow]

theorem laid_of_isSimple {g : Chart} {s : Stmt} {p q : Place} (h : isSimple s = true)
    (hs : Holds g.blocks p s.key q) : Laid g E label s p q := by
  cases s <;> first | (simp [isSimple] at h; done) | (rw [Laid]; exact hs)

/-- The labels in the clauses that are not the default. -/
def caseLabels (cs : List Stmt) : List String := labelsOfAll (cs.filter (!isDefault ·))

/-- The labels in the default clause. -/
def defaultLabels (cs : List Stmt) : List String := labelsOfAll (cs.filter isDefault)

theorem labelsOfAll_perm (cs : List Stmt) :
    (labelsOfAll cs).Perm (caseLabels cs ++ defaultLabels cs) := by
  simp only [caseLabels, defaultLabels, labelsOfAll_eq_flatMap]
  rw [← List.flatMap_append]
  refine List.Perm.flatMap_right _ (.symm ?_)
  exact List.perm_append_comm.trans (List.filter_append_perm isDefault cs)

theorem caseLabels_of_default {c : Stmt} (h : isDefault c = true) :
    caseLabels (c :: cs) = caseLabels cs := by
  simp [caseLabels, h]

theorem caseLabels_of_case {c : Stmt} (h : isDefault c = false) :
    caseLabels (c :: cs) = labelsOf c ++ caseLabels cs := by
  simp [caseLabels, h, labelsOfAll]

theorem defaultLabels_of_case {c : Stmt} (h : isDefault c = false) :
    defaultLabels (c :: cs) = defaultLabels cs := by
  simp [defaultLabels, h]

theorem defaultLabels_eq_nil (h : cs.countP isDefault = 0) : defaultLabels cs = [] := by
  rw [defaultLabels, List.filter_eq_nil_iff.mpr]
  · rfl
  · simpa [List.countP_eq_zero] using h

/-- There is one default clause at most. -/
theorem defaultLabels_of_default {c : Stmt} (h : isDefault c = true)
    (hone : (c :: cs).countP isDefault ≤ 1) :
    defaultLabels (c :: cs) = labelsOf c ∧ cs.countP isDefault = 0 := by
  rw [List.countP_cons_of_pos h] at hone
  have hcs : cs.countP isDefault = 0 := by omega
  refine ⟨?_, hcs⟩
  have hnil : labelsOfAll (cs.filter isDefault) = [] := defaultLabels_eq_nil hcs
  rw [defaultLabels, List.filter_cons_of_pos h, labelsOfAll, hnil, List.append_nil]

namespace Moved

/-- The labels of the clauses are due in the order in which the clauses are laid. -/
theorem sortLabels :
    Moved ⟨known, kept, labelsOfAll cs ++ due, l⟩
      ⟨known, kept, caseLabels cs ++ (defaultLabels cs ++ due), l⟩ fun _ => True := by
  rw [← List.append_assoc]
  exact reorder (.refl _) ((labelsOfAll_perm cs).append_right due) fun _ _ => id

/-! ## Type switches -/

theorem typeCases (hss : ∀ {pos exprs colon ss}, .caseClause pos exprs colon ss ∈ cs → LaysAll labels ss)
    (hw : wellFormedCases labels sc label false cs = true)
    (hE : (E.inClause label done none).Covers (sc.inClause label false))
    (hj : (E.inClause label done none).Sees (j.inClause done) known) :
    Moved ⟨known, kept, caseLabels cs ++ due, l⟩
      ⟨known, kept, due, flowTypeCases j done cs l⟩ fun g =>
      TypesLaid (g.chart labels) E label done cs l.here (flowTypeCases j done cs l).here := by
  induction cs generalizing l with
  | nil =>
    rw [flowTypeCases]
    exact refl.mono fun _ _ => by rw [TypesLaid]
  | cons c cs ih =>
    obtain ⟨pos, types, colon, ss, rfl, hws, hrest⟩ := exists_of_wellFormedCases hw
    have ih {l} := ih (l := l) (fun h => hss (List.mem_cons_of_mem _ h)) hrest
    cases types with
    | nil =>
      have hflow : flowTypeCases j done (.caseClause pos [] colon ss :: cs) l =
          flowTypeCases j done cs l := by
        rw [flowTypeCases, if_pos List.isEmpty_nil]
      rw [hflow, caseLabels_of_default rfl]
      refine ih.mono fun g hg => ?_
      rw [TypesLaid, if_pos List.isEmpty_nil]
      exact hg
    | cons x xs =>
      have hflow : flowTypeCases j done (.caseClause pos (x :: xs) colon ss :: cs) l =
          flowTypeCases j done cs (((flowAll (j.inClause done) ss
            ((l.fresh.compareTypes l.size (x :: xs)).goOn l.size)).jump done).goOn
              (l.fresh.compareTypes l.size (x :: xs)).current) := by
        rw [flowTypeCases, List.isEmpty_cons, if_neg Bool.false_ne_true]
      rw [hflow, caseLabels_of_case rfl, labelsOf, List.append_assoc]
      have hlaid kept due l := (hss List.mem_cons_self).moved kept due l hws hE hj
      refine mono (trans fresh (trans (compareTypes _ x xs) (trans (hlaid _ _ _)
        (trans (jump (.refl _)) ih)))) ?_
      rintro g ⟨hfresh, ⟨htypes, hbody⟩, hlaid, ⟨hends, hnext⟩, hothers⟩
      rw [hfresh] at htypes
      rw [hbody] at hlaid
      rw [hnext] at hothers
      rw [TypesLaid, List.isEmpty_cons, if_neg Bool.false_ne_true]
      exact ⟨_, _, htypes, ⟨_, hlaid, hends⟩, hothers⟩

theorem flowDefault_eq_none (h : cs.countP isDefault = 0) : flowDefault j cs l = none := by
  induction cs with
  | nil => rw [flowDefault]
  | cons c cs ih =>
    have hc : isDefault c = false := by
      simpa using (List.countP_eq_zero.mp h) c List.mem_cons_self
    rw [List.countP_cons_of_neg (by simp [hc])] at h
    unfold flowDefault
    split
    next => simp_all
    next heq =>
      cases heq
      have hexprs : isDefault _ = false := hc
      rw [isDefault] at hexprs
      rw [ih h, hexprs]
      rfl
    next heq =>
      cases heq
      exact ih h

theorem defaultType (hss : ∀ {pos exprs colon ss}, .caseClause pos exprs colon ss ∈ cs → LaysAll labels ss)
    (hw : wellFormedCases labels sc label false cs = true) (hone : cs.countP isDefault ≤ 1)
    (hE : (E.inClause label done none).Covers (sc.inClause label false))
    (hj : (E.inClause label done none).Sees (j.inClause done) known) :
    Moved ⟨known, kept, defaultLabels cs ++ due, l⟩
      ⟨known, kept, due, (flowDefault (j.inClause done) cs l).getD l⟩ fun g =>
      Ends g.blocks.toList ((flowDefault (j.inClause done) cs l).getD l).here [done] →
        DefaultTypeLaid (g.chart labels) E label done cs l.here := by
  induction cs with
  | nil =>
    rw [flowDefault]
    exact refl.mono fun _ _ h => by rw [DefaultTypeLaid]; exact h
  | cons c cs ih =>
    obtain ⟨pos, types, colon, ss, rfl, hws, hrest⟩ := exists_of_wellFormedCases hw
    cases types with
    | nil =>
      obtain ⟨hlabels, hcs⟩ := defaultLabels_of_default rfl hone
      have hflow : flowDefault (j.inClause done) (.caseClause pos [] colon ss :: cs) l =
          some (flowAll (j.inClause done) ss l) := by
        rw [flowDefault, flowDefault_eq_none hcs, if_pos List.isEmpty_nil, Option.none_or]
      rw [hflow, hlabels, labelsOf, Option.getD_some]
      refine ((hss List.mem_cons_self).moved _ _ _ hws hE hj).mono fun g hlaid hends => ?_
      rw [DefaultTypeLaid, if_pos List.isEmpty_nil]
      exact ⟨_, hlaid, hends⟩
    | cons x xs =>
      rw [List.countP_cons_of_neg (by simp [isDefault])] at hone
      have hflow : flowDefault (j.inClause done) (.caseClause pos (x :: xs) colon ss :: cs) l =
          flowDefault (j.inClause done) cs l := by
        rw [flowDefault, List.isEmpty_cons, if_neg Bool.false_ne_true, Option.or_none]
      rw [hflow, defaultLabels_of_case rfl]
      refine (ih (fun h => hss (List.mem_cons_of_mem _ h)) hrest hone).mono fun g hlaid hends => ?_
      rw [DefaultTypeLaid, List.isEmpty_cons, if_neg Bool.false_ne_true]
      exact hlaid hends

/-- The clauses of a type switch are laid. -/
theorem typeClauses
    (hss : ∀ {pos exprs colon ss}, .caseClause pos exprs colon ss ∈ cs → LaysAll labels ss)
    (hw : wellFormedCases labels sc label false cs = true) (hone : cs.countP isDefault ≤ 1)
    (hE : (E.inClause label done none).Covers (sc.inClause label false))
    (hj : (E.inClause label done none).Sees (j.inClause done) known)
    {l' : Layout} (hflow : flowTypeCases j done cs l = l') :
    Moved ⟨known, done :: kept, labelsOfAll cs ++ due, l⟩
      ⟨known, kept, due, (((flowDefault (j.inClause done) cs l').getD l').jump done).goOn done⟩ fun g =>
      (∃ m, TypesLaid (g.chart labels) E label done cs l.here m ∧
        DefaultTypeLaid (g.chart labels) E label done cs m) ∧
      ((((flowDefault (j.inClause done) cs l').getD l').jump done).goOn done).here = .start done := by
  subst hflow
  refine mono (trans sortLabels (trans (typeCases hss hw hE hj) (trans (defaultType hss hw hone hE hj)
    (jump (.refl _))))) ?_
  rintro g ⟨-, htypes, hdefault, hends, hdone⟩
  exact ⟨⟨_, htypes, hdefault hends⟩, hdone⟩

/-! ## Selects -/

theorem comms (hw : wellFormedComms labels sc label cs = true) :
    Moved ⟨known, kept, due, l⟩ ⟨known, kept, due, flowComms j cs l⟩ fun g =>
      CommsLaid (g.chart labels) E cs l.here (flowComms j cs l).here := by
  induction cs generalizing l with
  | nil =>
    rw [flowComms]
    exact refl.mono fun _ _ => by rw [CommsLaid]
  | cons c cs ih =>
    obtain ⟨pos, comm, colon, ss, rfl, hcomm, -, hrest⟩ := exists_of_wellFormedComms hw
    rw [flowComms]
    cases comm with
    | none =>
      rw [flowOption]
      refine (ih hrest).mono fun g hg => ?_
      rw [CommsLaid]
      exact hg
      all_goals nofun
    | some s =>
      have hs : isSimple s = true := hcomm
      have hflow : flow j none s l = l.emit s.key := flow_of_isSimple hs
      rw [flowOption, hflow]
      refine (trans emit (ih hrest)).mono fun g hg => ?_
      rw [CommsLaid]
      exact ⟨_, laid_of_isSimple hs hg.1, hg.2⟩

/-- A communication is chosen, and what it assigns to is evaluated. -/
theorem flowCommCases_some {pos colon : Pos} {comm : Stmt} {ss : List Stmt} :
    flowCommCases j done (.commClause pos (some comm) colon ss :: cs) l =
      flowCommCases j done cs (((flowAll (j.inClause done) ss
        ((assignedKeys comm).foldl Layout.emit
          ((l.fresh.fresh.follow [l.size, l.size + 1]).goOn l.size))).jump done).goOn
            (l.size + 1)) := by
  rw [flowCommCases, assignedKeys]
  cases firstAssigned? comm <;> rfl

theorem commCases (hss : ∀ {pos comm colon ss}, .commClause pos comm colon ss ∈ cs → LaysAll labels ss)
    (hw : wellFormedComms labels sc label cs = true)
    (hE : (E.inClause label done none).Covers (sc.inClause label false))
    (hj : (E.inClause label done none).Sees (j.inClause done) known) :
    Moved ⟨known, kept, caseLabels cs ++ due, l⟩
      ⟨known, kept, due, flowCommCases j done cs l⟩ fun g =>
      ProceedsLaid (g.chart labels) E label done cs l.here (flowCommCases j done cs l).here := by
  induction cs generalizing l with
  | nil =>
    rw [flowCommCases]
    exact refl.mono fun _ _ => by rw [ProceedsLaid]
  | cons c cs ih =>
    obtain ⟨pos, comm, colon, ss, rfl, hcomm, hws, hrest⟩ := exists_of_wellFormedComms hw
    have ih {l} := ih (l := l) (fun h => hss (List.mem_cons_of_mem _ h)) hrest
    cases comm with
    | none =>
      have hflow : flowCommCases j done (.commClause pos none colon ss :: cs) l =
          flowCommCases j done cs l := by
        rw [flowCommCases]
        nofun
      rw [hflow, caseLabels_of_default rfl]
      refine ih.mono fun g hg => ?_
      rw [ProceedsLaid]
      · exact hg
      · nofun
    | some s =>
      have hs : isSimple s = true := hcomm
      rw [flowCommCases_some, caseLabels_of_case rfl, labelsOf, labelsOfOption, labelsOf_of_isSimple hs,
        List.nil_append, List.append_assoc]
      have hlaid kept due l := (hss List.mem_cons_self).moved kept due l hws hE hj
      refine mono (trans fresh (trans (fresh_of Layout.size_fresh) (trans (turn (.swap _ _ _)) (trans (emits _)
        (trans (hlaid _ _ _) (trans (jump (.refl _)) ih)))))) ?_
      rintro g ⟨hf, hf', ⟨hends, hbody⟩, hassigned, hlaid, ⟨hout, hnext⟩, hothers⟩
      rw [hf', hf] at hends
      rw [hbody] at hassigned
      rw [hnext] at hothers
      rw [ProceedsLaid]
      exact ⟨_, _, _, hends, hassigned, ⟨_, hlaid, hout⟩, hothers⟩

theorem flowCommDefault_eq_none (h : cs.countP isDefault = 0) : flowCommDefault j cs l = none := by
  induction cs with
  | nil => rw [flowCommDefault]
  | cons c cs ih =>
    have hc : isDefault c = false := by
      simpa using (List.countP_eq_zero.mp h) c List.mem_cons_self
    rw [List.countP_cons_of_neg (by simp [hc])] at h
    unfold flowCommDefault
    split
    next => simp_all
    next heq =>
      cases heq
      cases hc
    next heq =>
      cases heq
      exact ih h

/-- Without a default clause a select goes nowhere else. -/
theorem defaultComm
    (hss : ∀ {pos comm colon ss}, .commClause pos comm colon ss ∈ cs → LaysAll labels ss)
    (hw : wellFormedComms labels sc label cs = true) (hone : cs.countP isDefault ≤ 1)
    (hE : (E.inClause label done none).Covers (sc.inClause label false))
    (hj : (E.inClause label done none).Sees (j.inClause done) known) :
    Moved ⟨known, done :: kept, defaultLabels cs ++ due, l⟩
      ⟨known, kept, due, (match flowCommDefault (j.inClause done) cs l with
        | some l => l.jump done
        | none => l).goOn done⟩ fun g =>
      DefaultCommLaid (g.chart labels) E label done cs l.here ∧
        ((match flowCommDefault (j.inClause done) cs l with
          | some l => l.jump done
          | none => l).goOn done).here = .start done := by
  induction cs with
  | nil =>
    rw [flowCommDefault]
    have hturn : Moved ⟨known, done :: kept, due, l⟩ ⟨known, kept, due, (l.follow []).goOn done⟩ _ :=
      turn (.refl _)
    rw [Layout.follow_nil] at hturn
    exact hturn.mono fun g hg => ⟨by rw [DefaultCommLaid]; exact hg.1, hg.2⟩
  | cons c cs ih =>
    obtain ⟨pos, comm, colon, ss, rfl, hcomm, hws, hrest⟩ := exists_of_wellFormedComms hw
    cases comm with
    | none =>
      obtain ⟨hlabels, hcs⟩ := defaultLabels_of_default rfl hone
      have hflow : flowCommDefault (j.inClause done) (.commClause pos none colon ss :: cs) l =
          some (flowAll (j.inClause done) ss l) := by
        rw [flowCommDefault, flowCommDefault_eq_none hcs, Option.none_or]
      rw [hflow, hlabels, labelsOf, labelsOfOption, List.nil_append]
      refine mono (trans ((hss List.mem_cons_self).moved _ _ _ hws hE hj) (jump (.refl _))) ?_
      rintro g ⟨hlaid, hends, hdone⟩
      rw [DefaultCommLaid]
      exact ⟨⟨_, hlaid, hends⟩, hdone⟩
    | some s =>
      rw [List.countP_cons_of_neg (by simp [isDefault])] at hone
      have hflow : flowCommDefault (j.inClause done) (.commClause pos (some s) colon ss :: cs) l =
          flowCommDefault (j.inClause done) cs l := by
        rw [flowCommDefault]
        rintro _ _ _ ⟨⟩
      rw [hflow, defaultLabels_of_case rfl]
      refine (ih (fun h => hss (List.mem_cons_of_mem _ h)) hrest hone).mono fun g hg => ?_
      rw [DefaultCommLaid]
      · exact hg
      · rintro _ _ _ ⟨⟩

/-- The clauses of a select are laid. -/
theorem selectClauses
    (hss : ∀ {pos comm colon ss}, .commClause pos comm colon ss ∈ cs → LaysAll labels ss)
    (hw : wellFormedComms labels sc label cs = true) (hone : cs.countP isDefault ≤ 1)
    (hE : (E.inClause label done none).Covers (sc.inClause label false))
    (hj : (E.inClause label done none).Sees (j.inClause done) known)
    {l' : Layout} (hflow : flowCommCases j done cs l = l') :
    Moved ⟨known, done :: kept, labelsOfAll cs ++ due, l⟩
      ⟨known, kept, due, (match flowCommDefault (j.inClause done) cs l' with
        | some l => l.jump done
        | none => l').goOn done⟩ fun g =>
      (∃ m, ProceedsLaid (g.chart labels) E label done cs l.here m ∧
        DefaultCommLaid (g.chart labels) E label done cs m) ∧
      ((match flowCommDefault (j.inClause done) cs l' with
        | some l => l.jump done
        | none => l').goOn done).here = .start done := by
  subst hflow
  refine mono (trans sortLabels (trans (commCases hss hw hE hj) (defaultComm hss hw hone hE hj))) ?_
  rintro g ⟨-, hcases, hdefault, hdone⟩
  exact ⟨⟨_, hcases, hdefault⟩, hdone⟩

end Moved

/-! ## Switches -/

/-- The block of the next clause, where one is made already. -/
def awaited : List Stmt → Option Nat → List Nat
  | [], _ => []
  | _ :: _, entry => entry.toList

theorem awaited_none : awaited cs none = [] := by
  cases cs <;> rfl

/-- The block of a clause, that of the clause behind it and the layout that has both. -/
def clauseBlocks (done : Nat) (cs : List Stmt) (entry : Option Nat) (l : Layout) :
    Nat × Nat × Layout :=
  let l' := if entry.isSome then l else l.fresh
  (entry.getD l.size, if cs.any isCase then l'.size else done,
    if cs.any isCase then l'.fresh else l')

theorem entry_eq_of_clauseBlocks {e body next : Nat} {l' : Layout}
    (h : clauseBlocks done cs (some e) l = (body, next, l')) : e = body :=
  congrArg Prod.fst h

/-- Behind the last clause the switch is done. -/
theorem next_eq_of_clauseBlocks {entry : Option Nat} {body next : Nat} {l' : Layout}
    (h : clauseBlocks done cs entry l = (body, next, l')) {bodies : List Nat}
    (hlen : bodies.length = cs.length) (hhead : ∀ b, bodies.head? = some b → next = b) :
    next = bodies.head?.getD done := by
  cases bodies with
  | nil =>
    obtain rfl := List.length_eq_zero_iff.mp hlen.symm
    exact (congrArg (·.2.1) h).symm
  | cons b bodies => exact hhead b rfl

theorem flowCases_default {pos colon : Pos} {ss : List Stmt} {entry : Option Nat}
    {last : Option (Nat × Nat)} {body next : Nat} {l' : Layout}
    (h : clauseBlocks done cs entry l = (body, next, l')) :
    flowCases j done (.caseClause pos [] colon ss :: cs) entry last l =
      flowCases j done cs (some next) (some (body, next)) l' := by
  cases h
  rw [flowCases, if_pos List.isEmpty_nil]

theorem flowCases_case {pos colon : Pos} {x : Expr} {xs : List Expr} {ss : List Stmt}
    {entry : Option Nat} {last : Option (Nat × Nat)} {body next : Nat} {l' : Layout}
    (h : clauseBlocks done cs entry l = (body, next, l')) :
    flowCases j done (.caseClause pos (x :: xs) colon ss :: cs) entry last l =
      flowCases j done cs (some next) last
        (((flowAll (j.inCase done next) ss ((l'.compare body (x :: xs)).goOn body)).jump done).goOn
          (l'.compare body (x :: xs)).current) := by
  cases h
  rw [flowCases, List.isEmpty_cons, if_neg Bool.false_ne_true]

/-- The statements of the default clause stand in its block. -/
def DefaultLaid (g : Chart) (E : Env) (label : Option String) (done : Nat) :
    List Stmt → List Nat → Prop
  | .caseClause _ exprs _ ss :: cs, body :: bodies =>
    if exprs.isEmpty then
      ∃ m, LaidAll g (E.inClause label done bodies.head?) ss (.start body) m ∧ Ends g.blocks m [done]
    else DefaultLaid g E label done cs bodies
  | _, _ => True

theorem DefaultLaid.of_none {g : Chart} {bodies : List Nat} (h : cs.countP isDefault = 0) :
    DefaultLaid g E label done cs bodies := by
  fun_induction DefaultLaid g E label done cs bodies with
  | case1 => simp_all [List.countP_cons, isDefault]
  | case2 pos exprs colon ss cs body bodies he ih =>
    rw [List.countP_cons_of_neg (by simpa [isDefault] using he)] at h
    exact ih h
  | case3 => trivial

theorem countP_of_defaultEntry {fall : Bool} {bodies : List Nat}
    (hw : wellFormedCases labels sc label fall cs = true) (hlen : bodies.length = cs.length)
    (h : defaultEntry done cs bodies = none) : cs.countP isDefault = 0 := by
  induction cs generalizing bodies with
  | nil => rfl
  | cons c cs ih =>
    obtain ⟨pos, exprs, colon, ss, rfl, -, hrest⟩ := exists_of_wellFormedCases hw
    cases bodies with
    | nil => cases hlen
    | cons body bodies =>
      rw [defaultEntry] at h
      split at h
      next => cases h
      next he =>
        rw [List.countP_cons_of_neg (by simpa [isDefault] using he)]
        exact ih hrest (Nat.succ.inj hlen) h

theorem defaultEntry_eq_none {bodies : List Nat} (h : cs.countP isDefault = 0) :
    defaultEntry done cs bodies = none := by
  fun_induction defaultEntry done cs bodies with
  | case1 => simp_all [List.countP_cons, isDefault]
  | case2 pos exprs colon ss cs body bodies he ih =>
    rw [List.countP_cons_of_neg (by simpa [isDefault] using he)] at h
    exact ih h
  | case3 => rfl

theorem exists_head? {bodies : List Nat} (hlen : bodies.length = cs.length)
    (h : (!cs.isEmpty) = true) : ∃ b, bodies.head? = some b := by
  cases bodies with
  | nil =>
    obtain rfl := List.length_eq_zero_iff.mp hlen.symm
    cases h
  | cons b bodies => exact ⟨b, rfl⟩

namespace Moved

/-- The block of a clause is made, if it is not awaited, and that of the next one. -/
theorem clauseBlocks {fall : Bool} (hw : wellFormedCases labels sc label fall cs = true)
    {entry : Option Nat} {body next : Nat} {l' : Layout}
    (h : clauseBlocks done cs entry l = (body, next, l')) :
    Moved ⟨known, entry.toList ++ kept, due, l⟩
      ⟨known, body :: (awaited cs (some next) ++ kept), due, l'⟩ fun _ => l'.here = l.here := by
  cases h
  have hentry : Moved ⟨known, entry.toList ++ kept, due, l⟩
      ⟨known, entry.getD l.size :: kept, due, if entry.isSome then l else l.fresh⟩ fun _ =>
      (if entry.isSome then l else l.fresh).here = l.here := by
    cases entry with
    | none => exact fresh
    | some body => exact refl.mono fun _ _ => rfl
  cases cs with
  | nil => exact hentry
  | cons c cs =>
    obtain ⟨pos, exprs, colon, ss, rfl, -⟩ := exists_of_wellFormedCases hw
    have hany : (Stmt.caseClause pos exprs colon ss :: cs).any isCase = true := by simp [isCase]
    simp only [hany, if_true]
    refine mono (trans hentry (trans fresh (reorder (.swap _ _ _) (.refl _) fun _ _ => id))) ?_
    exact fun g hg => hg.2.1.trans hg.1

/-- The clauses of a switch that are not the default are laid. They hold all that is laid of the clauses
but the statements of the default. -/
theorem cases (hss : ∀ {pos exprs colon ss}, .caseClause pos exprs colon ss ∈ cs → LaysAll labels ss)
    (hw : wellFormedCases labels sc label true cs = true) (hE : E.Covers sc)
    (hj : ∀ {next : Option Nat} {n : Nat}, (∀ b, next = some b → n = b) →
      (E.inClause label done next).Sees (j.inCase done n) known)
    (kept : List Nat) (due : List String) (l : Layout) (entry : Option Nat)
    (last : Option (Nat × Nat)) (hone : cs.countP isDefault + last.toList.length ≤ 1) :
    ∃ bodies : List Nat, bodies.length = cs.length ∧
      (∀ e, entry = some e → ∀ b, bodies.head? = some b → e = b) ∧
      (flowCases j done cs entry last l).2 = (defaultEntry done cs bodies).or last ∧
      Moved ⟨known, awaited cs entry ++ ((last.map (·.1)).toList ++ kept), caseLabels cs ++ due, l⟩
        ⟨known, ((flowCases j done cs entry last l).2.map (·.1)).toList ++ kept, due,
          (flowCases j done cs entry last l).1⟩ fun g =>
        CasesLaid g.blocks.toList cs bodies l.here (flowCases j done cs entry last l).1.here ∧
          (DefaultLaid (g.chart labels) E label done cs bodies →
            BodiesLaid (g.chart labels) E label done cs bodies) := by
  induction cs generalizing l entry last with
  | nil =>
    rw [flowCases]
    exact ⟨[], rfl, nofun, rfl, refl.mono fun _ _ => ⟨rfl, fun _ => by rw [BodiesLaid]; trivial⟩⟩
  | cons c cs ih =>
    obtain ⟨pos, exprs, colon, ss, rfl, hws, hrest⟩ := exists_of_wellFormedCases hw
    obtain ⟨body, next, l', hblocks⟩ :
        ∃ body next l', Flow.clauseBlocks done cs entry l = (body, next, l') := ⟨_, _, _, rfl⟩
    have hbody : ∀ e, entry = some e → ∀ b, some body = some b → e = b := by
      rintro e rfl b ⟨⟩
      exact entry_eq_of_clauseBlocks hblocks
    have hmoved kept due : Moved ⟨known, entry.toList ++ kept, due, l⟩
        ⟨known, body :: (awaited cs (some next) ++ kept), due, l'⟩ _ :=
      .clauseBlocks hrest hblocks
    have ih l := ih (fun h => hss (List.mem_cons_of_mem _ h)) hrest l (some next)
    cases exprs with
    | nil =>
      rw [List.countP_cons_of_pos rfl] at hone
      obtain rfl : last = none := by
        cases last
        · rfl
        · simp at hone
      have hcs : cs.countP isDefault = 0 := by omega
      rw [flowCases_default hblocks, caseLabels_of_default rfl]
      obtain ⟨bodies, hlen, hhead, hlast, ih⟩ := ih l' (some (body, next))
        (by rw [hcs]; rfl)
      refine ⟨body :: bodies, congrArg (· + 1) hlen, hbody, ?_, ?_⟩
      · rw [hlast, defaultEntry_eq_none hcs, defaultEntry, if_pos List.isEmpty_nil,
          ← next_eq_of_clauseBlocks hblocks hlen (hhead next rfl)]
        rfl
      · refine mono (trans (hmoved _ _) (trans (reorder List.perm_middle.symm (.refl _) fun _ _ => id) ih)) ?_
        rintro g ⟨hhere, -, hcases, hbodies⟩
        rw [hhere] at hcases
        refine ⟨⟨_, rfl, hcases⟩, fun h => ?_⟩
        rw [DefaultLaid, if_pos List.isEmpty_nil] at h
        rw [BodiesLaid]
        exact ⟨h, hbodies (.of_none hcs)⟩
    | cons x xs =>
      rw [List.countP_cons_of_neg (by simp [isDefault])] at hone
      rw [flowCases_case hblocks, caseLabels_of_case rfl, labelsOf, List.append_assoc]
      obtain ⟨bodies, hlen, hhead, hlast, ih⟩ := ih
        (((flowAll (j.inCase done next) ss ((l'.compare body (x :: xs)).goOn body)).jump done).goOn
          (l'.compare body (x :: xs)).current) last hone
      have hcovers : (E.inClause label done bodies.head?).Covers (sc.inClause label (!cs.isEmpty)) :=
        hE.inClause done (exists_head? hlen)
      have hlaid kept due l := (hss List.mem_cons_self).moved kept due l hws hcovers
        (hj (hhead next rfl))
      refine ⟨body :: bodies, congrArg (· + 1) hlen, hbody, ?_, ?_⟩
      · rw [hlast, defaultEntry, List.isEmpty_cons, if_neg Bool.false_ne_true]
      · refine mono (trans (hmoved _ _) (trans (compare _ x xs) (trans (hlaid _ _ _) (trans (jump (.refl _)) ih)))) ?_
        rintro g ⟨hhere, ⟨hexprs, hstart⟩, hlaid, ⟨hends, hother⟩, hcases, hbodies⟩
        rw [hhere] at hexprs
        rw [hstart] at hlaid
        rw [hother] at hcases
        refine ⟨⟨_, hexprs, hcases⟩, fun h => ?_⟩
        rw [DefaultLaid, List.isEmpty_cons, if_neg Bool.false_ne_true] at h
        rw [BodiesLaid]
        exact ⟨⟨_, hlaid, hends⟩, hbodies h⟩

/-- The statements of the default clause of a switch are laid. -/
theorem default (hss : ∀ {pos exprs colon ss}, .caseClause pos exprs colon ss ∈ cs → LaysAll labels ss)
    (hw : wellFormedCases labels sc label true cs = true) (hone : cs.countP isDefault ≤ 1)
    (hE : E.Covers sc)
    (hj : ∀ {next : Option Nat} {n : Nat}, (∀ b, next = some b → n = b) →
      (E.inClause label done next).Sees (j.inCase done n) known)
    (kept : List Nat) (due : List String) (l : Layout) {bodies : List Nat}
    (hlen : bodies.length = cs.length) {body next : Nat}
    (hentry : defaultEntry done cs bodies = some (body, next)) :
    ∃ ss, flowDefault (j.inCase done next) cs l = some (flowAll (j.inCase done next) ss l) ∧
      Moved ⟨known, kept, defaultLabels cs ++ due, l⟩
        ⟨known, kept, due, flowAll (j.inCase done next) ss l⟩ fun g =>
        l.here = .start body →
          Ends g.blocks.toList (flowAll (j.inCase done next) ss l).here [done] →
            DefaultLaid (g.chart labels) E label done cs bodies := by
  induction cs generalizing bodies with
  | nil => cases hentry
  | cons c cs ih =>
    obtain ⟨pos, exprs, colon, ss, rfl, hws, hrest⟩ := exists_of_wellFormedCases hw
    cases bodies with
    | nil => cases hlen
    | cons body' bodies =>
      cases exprs with
      | nil =>
        obtain ⟨hlabels, hcs⟩ := defaultLabels_of_default rfl hone
        rw [defaultEntry, if_pos List.isEmpty_nil, Option.some.injEq, Prod.mk.injEq] at hentry
        obtain ⟨rfl, hnext⟩ := hentry
        have hcovers : (E.inClause label done bodies.head?).Covers (sc.inClause label (!cs.isEmpty)) :=
          hE.inClause done (exists_head? (Nat.succ.inj hlen))
        have hsees : (E.inClause label done bodies.head?).Sees (j.inCase done next) known :=
          hj fun b hb => by rw [← hnext, hb, Option.getD_some]
        refine ⟨ss, by rw [flowDefault, flowDefault_eq_none hcs, if_pos List.isEmpty_nil,
          Option.none_or], ?_⟩
        rw [hlabels, labelsOf]
        refine ((hss List.mem_cons_self).moved _ _ _ hws hcovers hsees).mono fun g hlaid hstart hends => ?_
        rw [hstart] at hlaid
        rw [DefaultLaid, if_pos List.isEmpty_nil]
        exact ⟨_, hlaid, hends⟩
      | cons x xs =>
        rw [List.countP_cons_of_neg (by simp [isDefault])] at hone
        rw [defaultEntry, List.isEmpty_cons, if_neg Bool.false_ne_true] at hentry
        obtain ⟨ss', hflow, hmoved⟩ := ih (fun h => hss (List.mem_cons_of_mem _ h)) hrest hone
          (Nat.succ.inj hlen) hentry
        refine ⟨ss', by rw [flowDefault, List.isEmpty_cons, if_neg Bool.false_ne_true, Option.or_none, hflow], ?_⟩
        rw [defaultLabels_of_case rfl]
        refine hmoved.mono fun g hlaid hstart hends => ?_
        rw [DefaultLaid, List.isEmpty_cons, if_neg Bool.false_ne_true]
        exact hlaid hstart hends

/-- The clauses of a switch are laid. -/
theorem switchClauses
    (hss : ∀ {pos exprs colon ss}, .caseClause pos exprs colon ss ∈ cs → LaysAll labels ss)
    (hw : wellFormedCases labels sc label true cs = true) (hone : cs.countP isDefault ≤ 1)
    (hE : E.Covers sc)
    (hj : ∀ {next : Option Nat} {n : Nat}, (∀ b, next = some b → n = b) →
      (E.inClause label done next).Sees (j.inCase done n) known)
    {l' : Layout} {last : Option (Nat × Nat)}
    (hflow : flowCases j done cs none none l = (l', last)) :
    Moved ⟨known, done :: kept, labelsOfAll cs ++ due, l⟩
      ⟨known, kept, due, ((match last with
        | some (body, next) =>
          (flowDefault (j.inCase done next) cs ((l'.jump body).goOn body)).getD l'
        | none => l').jump done).goOn done⟩ fun g =>
      (∃ bodies, CasesLaid g.blocks.toList cs bodies l.here l'.here ∧
        Ends g.blocks.toList l'.here [defaultBody done cs bodies] ∧
        BodiesLaid (g.chart labels) E label done cs bodies) ∧
      (((match last with
        | some (body, next) =>
          (flowDefault (j.inCase done next) cs ((l'.jump body).goOn body)).getD l'
        | none => l').jump done).goOn done).here = .start done := by
  obtain ⟨bodies, hlen, -, hlast, hcases⟩ := cases hss hw hE hj (done :: kept)
    (defaultLabels cs ++ due) l none none hone
  rw [hflow, Option.or_none] at hlast
  rw [hflow, awaited_none] at hcases
  cases hentry : defaultEntry done cs bodies with
  | none =>
    have hcs := countP_of_defaultEntry hw hlen hentry
    obtain rfl : last = none := hlast.trans hentry
    have hsort : Moved ⟨known, done :: kept, labelsOfAll cs ++ due, l⟩
        ⟨known, done :: kept, caseLabels cs ++ (defaultLabels cs ++ due), l⟩ _ := sortLabels
    rw [defaultLabels_eq_nil hcs] at hcases hsort
    refine mono (trans hsort (trans hcases (jump (.refl _)))) ?_
    rintro g ⟨-, ⟨hcases, hbodies⟩, hends, hdone⟩
    refine ⟨⟨bodies, hcases, ?_, hbodies (.of_none hcs)⟩, hdone⟩
    rw [defaultBody, hentry]
    exact hends
  | some entry =>
    obtain ⟨body, next⟩ := entry
    obtain rfl : last = some (body, next) := hlast.trans hentry
    obtain ⟨ss, hdefault, hmoved⟩ := default hss hw hone hE hj (done :: kept) due
      ((l'.jump body).goOn body) hlen hentry
    simp only [hdefault, Option.getD_some]
    refine mono (trans sortLabels (trans hcases (trans (jump (.refl _)) (trans hmoved
      (jump (.refl _)))))) ?_
    rintro g ⟨-, ⟨hcases, hbodies⟩, ⟨hends, hstart⟩, hlaid, hout, hdone⟩
    refine ⟨⟨bodies, hcases, ?_, hbodies (hlaid hstart hout)⟩, hdone⟩
    rw [defaultBody, hentry]
    exact hends

end Moved

end LosslessGo.Flow
