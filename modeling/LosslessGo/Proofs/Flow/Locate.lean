import LosslessGo.Proofs.Flow.Follows

/-!
# Where a `goto` leads

What `locate` gives for a label is what follows the block of the label, wherever the labelled statement
stands in the body.

* `Finds` says so of a search in something that declares given labels.
* `locateAll_finds` and the theorems beside it follow `locate` part by part.
-/

namespace LosslessGo.Flow

open Go

/-- A search for label `x` gives what follows its block, where `x` is one of `ls`. -/
structure Finds (g : Chart) (x : String) (ls : List String) (found : Option (List Task)) : Prop where
  holds : x ∈ ls → ∃ σ t, found = some σ ∧ g.goto x = some t ∧ ∃ E, Follows g E σ (.start t)
  absent : x ∉ ls → found = none

variable {g : Chart} {x : String} {E : Env} {σ : List Task} {p q : Place} {labels : List String}
  {sc : Scope} {label : Option String} {done : Nat} {cs : List Stmt}

namespace Finds

theorem nil : Finds g x [] none := ⟨nofun, fun _ => rfl⟩

theorem or {ls ls' : List String} {a b : Option (List Task)} (ha : Finds g x ls a)
    (hb : Finds g x ls' b) : Finds g x (ls ++ ls') (a.or b) where
  holds hx := by
    by_cases h : x ∈ ls
    · obtain ⟨σ, t, hσ, ht⟩ := ha.holds h
      exact ⟨σ, t, by rw [hσ, Option.some_or], ht⟩
    · rw [ha.absent h, Option.none_or]
      exact hb.holds ((List.mem_append.mp hx).resolve_left h)
  absent hx := by
    rw [ha.absent fun h => hx (List.mem_append_left _ h),
      hb.absent fun h => hx (List.mem_append_right _ h), Option.none_or]

theorem cons {y : String} {ls : List String} {τ : List Task} {t : Nat} {found : Option (List Task)}
    (ht : g.goto y = some t) (hτ : ∃ E, Follows g E τ (.start t)) (h : Finds g x ls found) :
    Finds g x (y :: ls) (if y = x then some τ else found) where
  holds hx := by
    split
    next hy => exact ⟨τ, t, rfl, hy ▸ ht, hτ⟩
    next hy => exact h.holds ((List.mem_cons.mp hx).resolve_left (Ne.symm hy))
  absent hx := by
    rw [if_neg fun hy => hx (List.mem_cons.mpr (.inl hy.symm))]
    exact h.absent fun hx' => hx (List.mem_cons_of_mem _ hx')

end Finds

/-! ## Optional statements -/

theorem of_laidOption {s : Option Stmt} (h : LaidOption g E s p q) (hσ : Follows g E σ q) :
    ∀ t ∈ s, ∃ E p q, Laid g E none t p q ∧ Follows g E σ q := by
  rintro t rfl
  rw [LaidOption] at h
  exact ⟨_, _, _, h, hσ⟩

theorem of_laidVia {s : Option Stmt} {b : Nat} (h : LaidVia g E s b done)
    (hσ : Follows g E σ (.start done)) : ∀ t ∈ s, ∃ E p q, Laid g E none t p q ∧ Follows g E σ q := by
  rintro t rfl
  rw [LaidVia] at h
  obtain ⟨m, hs, hends⟩ := h
  exact ⟨_, _, _, hs, .jump hends hσ⟩

/-! ## Clauses -/

/-- The statements of each clause of a switch stand in a block, and `leave` follows them. -/
def CasesFollow (g : Chart) (label : Option String) (fall : Bool) (σ : List Task) :
    List Stmt → Prop
  | [] => True
  | .caseClause _ _ _ ss :: cs =>
    (∃ E p m, LaidAll g E ss p m ∧ Follows g E (.leave label (if fall then cs else []) :: σ) m) ∧
      CasesFollow g label fall σ cs
  | _ :: cs => CasesFollow g label fall σ cs

/-- The statements of each clause of a select stand in a block, and `leave` follows them. -/
def CommsFollow (g : Chart) (label : Option String) (σ : List Task) : List Stmt → Prop
  | [] => True
  | .commClause _ _ _ ss :: cs =>
    (∃ E p m, LaidAll g E ss p m ∧ Follows g E (.leave label [] :: σ) m) ∧ CommsFollow g label σ cs
  | _ :: cs => CommsFollow g label σ cs

/-- A clause that falls into no other one is left for the end of the switch or select. -/
theorem exists_leave {ss : List Stmt} (h : ∃ m, LaidAll g (E.inClause label done none) ss p m ∧
      Ends g.blocks m [done]) (hσ : Follows g E σ (.start done)) :
    ∃ E p m, LaidAll g E ss p m ∧ Follows g E (.leave label [] :: σ) m := by
  obtain ⟨m, hlaid, hends⟩ := h
  have hbodies : BodiesLaid g E label done [] [] := by
    rw [BodiesLaid]
    trivial
  exact ⟨_, _, _, hlaid, .leave hends hbodies hσ⟩

theorem CasesFollow.of_bodies {bodies : List Nat} (h : BodiesLaid g E label done cs bodies)
    (hσ : Follows g E σ (.start done)) : CasesFollow g label true σ cs := by
  induction cs generalizing bodies with
  | nil => trivial
  | cons c cs ih =>
    rcases h.inv with ⟨hnil, -⟩ | ⟨_, _, _, ss, _, body, bodies, hc, rfl, ⟨m, hlaid, hends⟩, hrest⟩
    · cases hnil
    · cases hc
      exact ⟨⟨_, _, _, hlaid, .leave hends hrest hσ⟩, ih hrest⟩

/-- There is one default clause at most, and it is the one that is laid. -/
theorem CasesFollow.of_types (hw : wellFormedCases labels sc label false cs = true)
    (hone : cs.countP isDefault ≤ 1) (h : TypesLaid g E label done cs p q)
    (hdefault : cs.countP isDefault = 1 → DefaultTypeLaid g E label done cs q)
    (hσ : Follows g E σ (.start done)) : CasesFollow g label false σ cs := by
  induction cs generalizing p with
  | nil => trivial
  | cons c cs ih =>
    obtain ⟨pos, types, colon, ss, rfl, -, hrest⟩ := exists_of_wellFormedCases hw
    rw [TypesLaid] at h
    cases types with
    | nil =>
      rw [List.countP_cons_of_pos rfl] at hone hdefault
      rw [if_pos List.isEmpty_nil] at h
      have hlaid := hdefault (by omega)
      rw [DefaultTypeLaid, if_pos List.isEmpty_nil] at hlaid
      exact ⟨exists_leave hlaid hσ, ih hrest (by omega) h (by omega)⟩
    | cons y ys =>
      rw [List.countP_cons_of_neg (by simp [isDefault])] at hone hdefault
      rw [List.isEmpty_cons, if_neg Bool.false_ne_true] at h
      obtain ⟨body, r, -, hlaid, h⟩ := h
      refine ⟨exists_leave hlaid hσ, ih hrest hone h fun hd => ?_⟩
      have hd := hdefault hd
      rwa [DefaultTypeLaid, List.isEmpty_cons, if_neg Bool.false_ne_true] at hd

theorem CommsFollow.of_proceeds (hw : wellFormedComms labels sc label cs = true)
    (hone : cs.countP isDefault ≤ 1) (h : ProceedsLaid g E label done cs p q)
    (hdefault : cs.countP isDefault = 1 → DefaultCommLaid g E label done cs q)
    (hσ : Follows g E σ (.start done)) : CommsFollow g label σ cs := by
  induction cs generalizing p with
  | nil => trivial
  | cons c cs ih =>
    obtain ⟨pos, comm, colon, ss, rfl, -, -, hrest⟩ := exists_of_wellFormedComms hw
    cases comm with
    | none =>
      rw [List.countP_cons_of_pos rfl] at hone hdefault
      rw [ProceedsLaid] at h
      · have hlaid := hdefault (by omega)
        rw [DefaultCommLaid] at hlaid
        exact ⟨exists_leave hlaid hσ, ih hrest (by omega) h (by omega)⟩
      · rintro _ _ _ _ ⟨⟩
    | some s =>
      rw [List.countP_cons_of_neg (by simp [isDefault])] at hone hdefault
      rw [ProceedsLaid] at h
      obtain ⟨body, n, r, -, -, hlaid, h⟩ := h
      refine ⟨exists_leave hlaid hσ, ih hrest hone h fun hd => ?_⟩
      have hd := hdefault hd
      rw [DefaultCommLaid] at hd
      · exact hd
      · rintro _ _ _ ⟨⟩

/-! ## Statements -/

mutual

theorem locate_finds (s : Stmt) {label : Option String} {sc : Scope} {E : Env} {σ : List Task}
    {p q : Place} (hw : wellFormed labels sc label s = true) (h : Laid g E label s p q)
    (hσ : Follows g E σ q) : Finds g x (labelsOf s) (locate x label s σ) := by
  match s with
  | .labeled y _ s =>
    rw [wellFormed] at hw
    rw [Laid] at h
    obtain ⟨t, ht, -, hs⟩ := h
    rw [labelsOf, locate]
    exact .cons ht ⟨_, .stmt hs hσ⟩ (locate_finds s hw hs hσ)
  | .block ⟨_, ss, _⟩ =>
    rw [wellFormed] at hw
    rw [Laid] at h
    exact locateAll_finds ss hw h hσ
  | .ite _ init c ⟨_, ss, _⟩ otherwise =>
    rw [wellFormed, Bool.and_eq_true, Bool.and_eq_true] at hw
    obtain ⟨⟨hwi, hwb⟩, hwo⟩ := hw
    rw [Laid] at h
    obtain ⟨r, yes, no, done, hinit, hcond, ⟨m, hlaid, hends⟩, hother, rfl⟩ := h
    have hrest := Follows.cond hcond (.run hlaid (.jump hends hσ)) (.runVia hother hσ) hσ
    rw [labelsOf, locate]
    exact (locateOption_finds init hwi (of_laidOption hinit hrest)).or
      ((locateAll_finds ss hwb hlaid (.jump hends hσ)).or
        (locateOption_finds otherwise hwo (of_laidVia hother hσ)))
  | .switch _ init tag ⟨_, cs, _⟩ =>
    rw [wellFormed, Bool.and_eq_true, Bool.and_eq_true] at hw
    obtain ⟨⟨hwi, -⟩, hwc⟩ := hw
    rw [Laid] at h
    obtain ⟨r, m, n, bodies, done, hinit, htag, hcases, hends, hbodies, rfl⟩ := h
    have hrest := Follows.emits htag (.switchTask hcases hends hbodies hσ)
    rw [labelsOf, locate]
    exact (locateOption_finds init hwi (of_laidOption hinit hrest)).or
      (locateCases_finds cs hwc (.of_bodies hbodies hσ))
  | .typeSwitch _ init assign ⟨_, cs, _⟩ =>
    simp only [wellFormed, Bool.and_eq_true, decide_eq_true_eq] at hw
    obtain ⟨⟨⟨hwi, hwa⟩, hone⟩, hwc⟩ := hw
    rw [Laid] at h
    obtain ⟨r, m, n, done, hinit, hassign, htypes, hdefault, rfl⟩ := h
    have hrest := Follows.typeTask htypes hdefault hσ
    rw [labelsOf, locate]
    exact (locateOption_finds init hwi (of_laidOption hinit (.stmt hassign hrest))).or
      ((locate_finds assign hwa hassign hrest).or
        (locateCases_finds cs hwc (.of_types hwc hone htypes (fun _ => hdefault) hσ)))
  | .select _ ⟨_, cs, _⟩ =>
    rw [wellFormed, Bool.and_eq_true, decide_eq_true_eq] at hw
    rw [Laid] at h
    obtain ⟨m, n, done, -, hproceeds, hdefault, rfl⟩ := h
    rw [labelsOf, locate]
    exact locateComms_finds cs hw.2 (.of_proceeds hw.2 hw.1 hproceeds (fun _ => hdefault) hσ)
  | .forLoop _ init c post ⟨_, ss, _⟩ =>
    rw [wellFormed, Bool.and_eq_true, Bool.and_eq_true] at hw
    obtain ⟨⟨hwi, hwb⟩, hwp⟩ := hw
    rw [Laid] at h
    obtain ⟨r, again, body, cont, done, hinit, hends, hguard, ⟨m, hlaid, hout⟩, hpost, rfl⟩ := h
    have hloop : LoopLaid g E label ⟨.ofCond c, post, ss⟩ again cont done :=
      ⟨body, hguard, ⟨m, hlaid, hout⟩, hpost⟩
    have hrest := Follows.loop hloop hσ
    rw [labelsOf, locate]
    exact (locateOption_finds init hwi (of_laidOption hinit (.jump hends hrest))).or
      ((locateAll_finds ss hwb hlaid (.turn hout hloop hσ)).or
        (locateOption_finds post hwp (of_laidVia hpost hrest)))
  | .range _ key value _ _ _ y ⟨_, ss, _⟩ =>
    rw [wellFormed] at hw
    rw [Laid] at h
    obtain ⟨r, again, body, done, -, -, hguard, ⟨m, hlaid, hout⟩, rfl⟩ := h
    have hloop : LoopLaid g E label ⟨.each, none, ss⟩ again again done :=
      ⟨body, hguard, ⟨m, hlaid, hout⟩, by rw [LaidVia]⟩
    rw [labelsOf, locate]
    exact locateAll_finds ss hw hlaid (.turn hout hloop hσ)
  | .caseClause .. | .commClause .. => rw [wellFormed] at hw; cases hw
  | .bad .. | .send .. | .incDec .. | .go .. | .defer .. | .empty .. | .assign .. | .expr _
  | .decl _ | .ret .. | .branch .. => exact .nil

theorem locateOption_finds (s : Option Stmt) {sc : Scope} {σ : List Task}
    (hw : wellFormedOption labels sc s = true)
    (h : ∀ t ∈ s, ∃ E p q, Laid g E none t p q ∧ Follows g E σ q) :
    Finds g x (labelsOfOption s) (locateOption x s σ) := by
  match s with
  | none => exact .nil
  | some s =>
    obtain ⟨E, p, q, hs, hσ⟩ := h s rfl
    exact locate_finds s hw hs hσ

theorem locateAll_finds (ss : List Stmt) {sc : Scope} {E : Env} {σ : List Task} {p q : Place}
    (hw : wellFormedAll labels sc ss = true) (h : LaidAll g E ss p q) (hσ : Follows g E σ q) :
    Finds g x (labelsOfAll ss) (locateAll x ss σ) := by
  match ss with
  | [] => exact .nil
  | s :: ss =>
    rw [wellFormedAll, Bool.and_eq_true] at hw
    rw [LaidAll] at h
    obtain ⟨r, hs, hss⟩ := h
    exact (locate_finds s hw.1 hs (.run hss hσ)).or (locateAll_finds ss hw.2 hss hσ)

theorem locateCases_finds (cs : List Stmt) {label : Option String} {sc : Scope} {σ : List Task}
    {fall : Bool} (hw : wellFormedCases labels sc label fall cs = true)
    (h : CasesFollow g label fall σ cs) :
    Finds g x (labelsOfAll cs) (locateCases x label fall cs σ) := by
  match cs with
  | [] => exact .nil
  | .caseClause _ _ _ ss :: cs =>
    rw [wellFormedCases, Bool.and_eq_true] at hw
    obtain ⟨⟨E, p, m, hlaid, hσ⟩, hrest⟩ := h
    exact (locateAll_finds ss hw.1 hlaid hσ).or (locateCases_finds cs hw.2 hrest)
  | .bad .. :: _ | .send .. :: _ | .incDec .. :: _ | .go .. :: _ | .defer .. :: _ | .empty .. :: _
  | .assign .. :: _ | .expr _ :: _ | .decl _ :: _ | .labeled .. :: _ | .ret .. :: _
  | .branch .. :: _ | .block _ :: _ | .ite .. :: _ | .switch .. :: _ | .typeSwitch .. :: _
  | .select .. :: _ | .forLoop .. :: _ | .range .. :: _ | .commClause .. :: _ => cases hw

theorem locateComms_finds (cs : List Stmt) {label : Option String} {sc : Scope} {σ : List Task}
    (hw : wellFormedComms labels sc label cs = true) (h : CommsFollow g label σ cs) :
    Finds g x (labelsOfAll cs) (locateComms x label cs σ) := by
  match cs with
  | [] => exact .nil
  | .commClause _ comm _ ss :: cs =>
    rw [wellFormedComms, Bool.and_eq_true, Bool.and_eq_true] at hw
    obtain ⟨⟨E, p, m, hlaid, hσ⟩, hrest⟩ := h
    have hcomm : labelsOfOption comm = [] := by
      cases comm with
      | none => rfl
      | some s => exact labelsOf_of_isSimple hw.1.1
    rw [labelsOfAll, labelsOf, hcomm, List.nil_append]
    exact (locateAll_finds ss hw.1.2 hlaid hσ).or (locateComms_finds cs hw.2 hrest)
  | .bad .. :: _ | .send .. :: _ | .incDec .. :: _ | .go .. :: _ | .defer .. :: _ | .empty .. :: _
  | .assign .. :: _ | .expr _ :: _ | .decl _ :: _ | .labeled .. :: _ | .ret .. :: _
  | .branch .. :: _ | .block _ :: _ | .ite .. :: _ | .switch .. :: _ | .typeSwitch .. :: _
  | .select .. :: _ | .forLoop .. :: _ | .range .. :: _ | .caseClause .. :: _ => cases hw

end

end LosslessGo.Flow
