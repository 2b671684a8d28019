import LosslessGo.Proofs.Flow.Statements
import LosslessGo.Proofs.Flow.Steps

/-!
# Statements are laid out in steps

Every statement is laid out in steps, whether its jumps have targets or not, however many of the clauses
around it are the default, and wherever clauses stand.

* `Site.Reaches.cases` and the lemmas beside it are about the clauses of switches and selects.
* `Stepwise.ite` and the lemmas beside it are about each kind of statement.
* `stepwiseAll` is about lists of statements, and so about bodies.
-/

namespace LosslessGo.Flow

open Go

variable {targets kept : List Nat} {due : List String} {l l' : Layout} {j : Jumps} {done : Nat}
  {ss cs : List Stmt} {c : Stmt}

namespace Stepwise

/-- Statement `s` is laid out in steps, whatever label it carries. -/
def Statement (s : Stmt) : Prop := ∀ label, Stepwise (fun j => flow j label s) (labelsOf s)

/-- An optional statement is laid out in steps. -/
def Optional (s : Option Stmt) : Prop := Stepwise (fun j => flowOption j s) (labelsOfOption s)

/-- Statements are laid out in steps. -/
def Statements (ss : List Stmt) : Prop := Stepwise (fun j => flowAll j ss) (labelsOfAll ss)

end Stepwise

/-! ## Targets of jumps -/

namespace Jumps

theorem blocks_inLoop {again : Nat} (h : j.blocks ⊆ targets) (hdone : done ∈ targets)
    (hagain : again ∈ targets) : (j.inLoop done again).blocks ⊆ targets := by
  simp_all [blocks, inLoop]

theorem blocks_inCase {next : Nat} (h : j.blocks ⊆ targets) (hdone : done ∈ targets)
    (hnext : next ∈ targets) : (j.inCase done next).blocks ⊆ targets := by
  simp_all [blocks, inCase]

theorem blocks_inClause (h : j.blocks ⊆ targets) (hdone : done ∈ targets) :
    (j.inClause done).blocks ⊆ targets := by
  simp_all [blocks, inClause]

end Jumps

/-! ## Clauses -/

/-- The statements of clauses are laid out in steps. -/
structure StepwiseClauses (cs : List Stmt) : Prop where
  cases : ∀ {pos exprs colon ss}, .caseClause pos exprs colon ss ∈ cs → Stepwise.Statements ss
  comms : ∀ {pos comm colon ss}, .commClause pos comm colon ss ∈ cs →
    Stepwise.Optional comm ∧ Stepwise.Statements ss

theorem StepwiseClauses.tail (h : StepwiseClauses (c :: cs)) : StepwiseClauses cs where
  cases hc := h.cases (List.mem_cons_of_mem _ hc)
  comms hc := h.comms (List.mem_cons_of_mem _ hc)

theorem labelsOfAll_filter_sublist (p : Stmt → Bool) (c : Stmt) (cs : List Stmt) :
    (labelsOfAll (cs.filter p)).Sublist (labelsOfAll ((c :: cs).filter p)) := by
  rw [List.filter_cons]
  split
  · rw [labelsOfAll]
    exact List.sublist_append_right _ _
  · exact .refl _

theorem defaultLabels_cons (h : isDefault c = true) :
    defaultLabels (c :: cs) = labelsOf c ++ defaultLabels cs := by
  rw [defaultLabels, List.filter_cons_of_pos h, labelsOfAll, defaultLabels]

/-- The labels of bodies of the communications of a select that are not the default. -/
def commBodyLabels : List Stmt → List String
  | [] => []
  | .commClause _ (some _) _ ss :: cs => labelsOfAll ss ++ commBodyLabels cs
  | _ :: cs => commBodyLabels cs

namespace Site.Reaches

/-- The labels of a clause that is left out are forgotten. -/
theorem skipCase :
    Reaches ⟨targets, kept, caseLabels (c :: cs) ++ due, l⟩ ⟨targets, kept, caseLabels cs ++ due, l⟩ :=
  sort ((labelsOfAll_filter_sublist _ c cs).append_right due).subperm

theorem skipDefault :
    Reaches ⟨targets, kept, defaultLabels (c :: cs) ++ due, l⟩
      ⟨targets, kept, defaultLabels cs ++ due, l⟩ :=
  sort ((labelsOfAll_filter_sublist _ c cs).append_right due).subperm

/-- The labels of the clauses are due in the order in which the clauses are laid out. -/
theorem sortClauses :
    Reaches ⟨targets, kept, labelsOfAll cs ++ due, l⟩
      ⟨targets, kept, caseLabels cs ++ (defaultLabels cs ++ due), l⟩ := by
  rw [← List.append_assoc]
  exact sort ((labelsOfAll_perm cs).append_right due).symm.subperm

/-- The statements of the last default clause are laid out. -/
theorem default (h : StepwiseClauses cs) (hj : j.blocks ⊆ targets)
    (hflow : flowDefault j cs l = some l') :
    Reaches ⟨targets, kept, defaultLabels cs ++ due, l⟩ ⟨targets, kept, due, l'⟩ := by
  induction cs with
  | nil =>
    rw [flowDefault] at hflow
    cases hflow
  | cons c cs ih =>
    have ih := ih h.tail
    unfold flowDefault at hflow
    split at hflow
    next heq => cases heq
    next pos exprs colon ss cs heq =>
      cases heq
      cases hrest : flowDefault j cs l with
      | some l' =>
        rw [hrest, Option.some_or, Option.some.injEq] at hflow
        exact skipDefault.trans (ih (hflow ▸ hrest))
      | none =>
        rw [hrest, Option.none_or] at hflow
        split at hflow
        next he =>
          obtain rfl : exprs = [] := List.isEmpty_iff.mp he
          obtain rfl := Option.some.inj hflow
          rw [defaultLabels_cons rfl, labelsOf, List.append_assoc]
          refine .trans (sort ?_) (h.cases List.mem_cons_self _ _ _ _ _ hj)
          exact ((List.sublist_append_right _ _).append_left _).subperm
        next => cases hflow
    next heq =>
      cases heq
      exact skipDefault.trans (ih hflow)

/-- The statements of the last default clause are laid out, if there is one. -/
theorem defaultOrSkip (h : StepwiseClauses cs) (hj : j.blocks ⊆ targets) :
    Reaches ⟨targets, kept, defaultLabels cs ++ due, l⟩
      ⟨targets, kept, due, (flowDefault j cs l).getD l⟩ := by
  cases hflow : flowDefault j cs l with
  | none => exact skip _
  | some l' => exact default h hj hflow

theorem typeCases (h : StepwiseClauses cs) (hdone : done ∈ targets) (hj : j.blocks ⊆ targets) :
    Reaches ⟨targets, kept, caseLabels cs ++ due, l⟩
      ⟨targets, kept, due, flowTypeCases j done cs l⟩ := by
  induction cs generalizing l with
  | nil =>
    rw [flowTypeCases]
    exact .refl
  | cons c cs ih =>
    unfold flowTypeCases
    split
    next heq => cases heq
    next pos types colon ss cs heq =>
      cases heq
      split
      next => exact skipCase.trans (ih h.tail)
      next he =>
        cases types with
        | nil => exact absurd List.isEmpty_nil he
        | cons x xs =>
          rw [caseLabels_of_case rfl, labelsOf, List.append_assoc]
          refine fresh.trans (.trans (compareTypes x xs List.mem_cons_self)
            (.trans (narrow (List.subset_cons_self _ _))
              (.trans (h.cases List.mem_cons_self _ _ _ _ _ (Jumps.blocks_inClause hj hdone))
                (.trans (jump (.refl _) hdone) (ih h.tail)))))
    next heq =>
      cases heq
      exact skipCase.trans (ih h.tail)

/-! ### Selects -/

theorem comms (h : StepwiseClauses cs) (hj : j.blocks ⊆ targets) :
    Reaches ⟨targets, kept, caseLabels cs ++ due, l⟩
      ⟨targets, kept, commBodyLabels cs ++ due, flowComms j cs l⟩ := by
  induction cs generalizing l due with
  | nil =>
    rw [flowComms]
    exact .refl
  | cons c cs ih =>
    unfold flowComms
    split
    next heq => cases heq
    next pos comm colon ss cs heq =>
      cases heq
      cases comm with
      | none =>
        rw [commBodyLabels, flowOption]
        · exact skipCase.trans (ih h.tail)
        · rintro _ _ _ _ ⟨⟩
      | some s =>
        rw [caseLabels_of_case rfl, labelsOf, commBodyLabels, List.append_assoc, List.append_assoc]
        refine .trans ((h.comms List.mem_cons_self).1 _ _ _ _ _ hj) (.trans
          (sort (List.perm_append_comm_assoc _ _ _).subperm) (.trans (ih h.tail) (sort ?_)))
        rw [List.append_assoc]
        exact (List.perm_append_comm_assoc _ _ _).subperm
    next hne heq =>
      cases heq
      rw [commBodyLabels]
      · exact skipCase.trans (ih h.tail)
      · exact fun _ _ _ _ => hne _ _ _ _

theorem commCases (h : StepwiseClauses cs) (hdone : done ∈ targets) (hj : j.blocks ⊆ targets) :
    Reaches ⟨targets, kept, commBodyLabels cs ++ due, l⟩
      ⟨targets, kept, due, flowCommCases j done cs l⟩ := by
  induction cs generalizing l with
  | nil =>
    rw [flowCommCases]
    exact .refl
  | cons c cs ih =>
    have ih {l} := ih (l := l) h.tail
    by_cases hc : ∃ pos comm colon ss, c = .commClause pos (some comm) colon ss
    · obtain ⟨pos, comm, colon, ss, rfl⟩ := hc
      rw [Moved.flowCommCases_some, commBodyLabels, List.append_assoc]
      have hss := (h.comms List.mem_cons_self).2
      refine fresh.trans (.trans (fresh_of Layout.size_fresh)
        (.trans (fork (.swap _ _ _) ?_ ?_) (.trans (emits _) (.trans (narrow ?_)
          (.trans (hss _ _ _ _ _ (Jumps.blocks_inClause hj hdone)) (.trans (jump (.refl _) hdone) ih))))))
      · exact List.mem_cons_of_mem _ List.mem_cons_self
      · exact List.mem_cons_self
      · exact List.subset_cons_of_subset _ (List.subset_cons_self _ _)
    · rw [flowCommCases, commBodyLabels]
      · exact ih
      all_goals exact fun _ _ _ _ h => hc ⟨_, _, _, _, h⟩

/-- The statements of the last default clause of a select are laid out. -/
theorem commDefault (h : StepwiseClauses cs) (hj : j.blocks ⊆ targets)
    (hflow : flowCommDefault j cs l = some l') :
    Reaches ⟨targets, kept, defaultLabels cs ++ due, l⟩ ⟨targets, kept, due, l'⟩ := by
  induction cs with
  | nil =>
    rw [flowCommDefault] at hflow
    cases hflow
  | cons c cs ih =>
    have ih := ih h.tail
    unfold flowCommDefault at hflow
    split at hflow
    next heq => cases heq
    next pos colon ss cs heq =>
      cases heq
      cases hrest : flowCommDefault j cs l with
      | some l' =>
        rw [hrest, Option.some_or, Option.some.injEq] at hflow
        exact skipDefault.trans (ih (hflow ▸ hrest))
      | none =>
        rw [hrest, Option.none_or] at hflow
        obtain rfl := Option.some.inj hflow
        rw [defaultLabels_cons rfl, labelsOf, labelsOfOption, List.nil_append, List.append_assoc]
        refine .trans (sort ?_) ((h.comms List.mem_cons_self).2 _ _ _ _ _ hj)
        exact ((List.sublist_append_right _ _).append_left _).subperm
    next heq =>
      cases heq
      exact skipDefault.trans (ih hflow)

end Site.Reaches

/-! ### Switches -/

/-- The block of the next clause, if there is one. -/
def entered (cs : List Stmt) (entry : Option Nat) : List Nat :=
  if cs.any isCase then entry.toList else []

/-- The block of a default clause and that of the clause after it. -/
def defaultBlocks (last : Option (Nat × Nat)) : List Nat := last.elim [] fun p => [p.1, p.2]

namespace Site.Reaches

/-- The block of a clause is made, if it is not made yet, and that of the next one. -/
theorem clauseBlocks {entry : Option Nat} {body next : Nat} (hdone : done ∈ targets)
    (hentry : entry.toList ⊆ targets)
    (h : clauseBlocks done cs entry l = (body, next, l')) :
    Reaches ⟨targets, entry.toList ++ kept, due, l⟩
      ⟨next :: body :: targets, body :: (entered cs (some next) ++ kept), due, l'⟩ := by
  cases h
  unfold entered
  cases entry with
  | none =>
    split
    · refine fresh.trans (fresh.trans (forget (List.Subset.refl _) ?_ (.refl _)))
      exact (List.Perm.swap _ _ _).subperm
    · refine fresh.trans (narrow ?_)
      simp [hdone]
  | some body =>
    have hbody : body ∈ targets := hentry List.mem_cons_self
    split
    · refine fresh.trans (forget ?_ (List.Perm.swap _ _ _).subperm (.refl _))
      simp [hbody]
    · refine narrow ?_
      simp [hbody, hdone]

/-- The clauses of a switch that have expressions are laid out. -/
theorem cases (targets kept : List Nat) (due : List String) (l : Layout) (entry : Option Nat)
    (last : Option (Nat × Nat)) (h : StepwiseClauses cs) (hdone : done ∈ targets)
    (hj : j.blocks ⊆ targets) (hentry : entry.toList ⊆ targets) :
    Reaches
      ⟨defaultBlocks last ++ targets, entered cs entry ++ ((last.map (·.1)).toList ++ kept),
        caseLabels cs ++ due, l⟩
      ⟨defaultBlocks (flowCases j done cs entry last l).2 ++ targets,
        ((flowCases j done cs entry last l).2.map (·.1)).toList ++ kept, due,
        (flowCases j done cs entry last l).1⟩ := by
  induction cs generalizing targets l entry last with
  | nil =>
    rw [flowCases]
    exact .refl
  | cons c cs ih =>
    by_cases hc : ∃ pos exprs colon ss, c = .caseClause pos exprs colon ss
    · obtain ⟨pos, exprs, colon, ss, rfl⟩ := hc
      obtain ⟨body, next, l', hblocks⟩ :
          ∃ body next l', Flow.clauseBlocks done cs entry l = (body, next, l') := ⟨_, _, _, rfl⟩
      have hentered : entered (.caseClause pos exprs colon ss :: cs) entry = entry.toList := by
        simp [entered, isCase]
      rw [hentered]
      refine (clauseBlocks (List.mem_append_right _ hdone)
        (List.subset_append_of_subset_right _ hentry) hblocks).trans ?_
      -- The blocks of the clause are targets behind those that were there.
      have hold : targets ⊆ next :: body :: targets := List.subset_append_right [next, body] _
      have hmore : defaultBlocks last ++ (next :: body :: targets) ⊆
          next :: body :: (defaultBlocks last ++ targets) := by
        grind
      have hless {last : Option (Nat × Nat)} : defaultBlocks last ++ targets ⊆
          defaultBlocks last ++ (next :: body :: targets) := by
        grind
      have ih l last := ih (next :: body :: targets) l (some next) last h.tail (hold hdone)
        (List.Subset.trans hj hold) (by simp)
      cases exprs with
      | nil =>
        rw [flowCases_default hblocks, caseLabels_of_default rfl]
        refine .trans (forget ?_ ?_ (.refl _)) (.trans (ih l' (some (body, next))) (narrow hless))
        · show body :: next :: (next :: body :: targets) ⊆ _
          grind
        · -- The block of an earlier default clause is never gone on in.
          exact List.perm_middle.subperm.trans
            (((List.sublist_append_right _ _).append_left _).cons_cons body).subperm
      | cons x xs =>
        rw [flowCases_case hblocks, caseLabels_of_case rfl, labelsOf, List.append_assoc]
        refine .trans (narrow hmore) (.trans (compare x xs ?_) (.trans
          (h.cases List.mem_cons_self _ _ _ _ _ (Jumps.blocks_inCase ?_ ?_ ?_))
            (.trans (jump (.refl _) ?_) (.trans (ih _ last) (narrow hless)))))
        all_goals grind
    · have hentered : entered (c :: cs) entry = entered cs entry := by
        have hcase : isCase c = false := by
          cases c <;> first | rfl | exact absurd ⟨_, _, _, _, rfl⟩ hc
        simp [entered, hcase]
      rw [flowCases, hentered]
      · exact skipCase.trans (ih targets l entry last h.tail hdone hj hentry)
      · exact fun _ _ _ _ h => hc ⟨_, _, _, _, h⟩

end Site.Reaches

/-! ## Statements -/

variable {label : Option String} {pos lbrace rbrace : Pos} {s : Stmt} {init : Option Stmt}

namespace Stepwise

open Site.Reaches

theorem optionNone : Optional none := by
  intro j targets kept due l _
  simp only [flowOption]
  exact .refl

theorem optionSome (h : Statement s) : Optional (some s) := by
  intro j targets kept due l hj
  simp only [flowOption]
  exact h none j targets kept due l hj

theorem nil : Statements [] := by
  intro j targets kept due l _
  simp only [flowAll]
  exact .refl

theorem cons (hs : Statement s) (hss : Statements ss) : Statements (s :: ss) := by
  intro j targets kept due l hj
  simp only [flowAll]
  rw [labelsOfAll, List.append_assoc]
  exact (hs none _ _ _ _ _ hj).trans (hss _ _ _ _ _ hj)

theorem of_isSimple (h : isSimple s = true) : Statement s := by
  intro label j targets kept due l _
  simp only [flow_of_isSimple h]
  rw [labelsOf_of_isSimple h]
  exact emit

theorem decl (d : GenDecl) : Statement (.decl d) := by
  intro label j targets kept due l _
  simp only [flow, Layout.emitVars_eq]
  exact Site.Reaches.emits _

theorem ret (results : List Expr) : Statement (.ret pos results) := by
  intro label j targets kept due l _
  simp only [flow]
  exact emit.trans goOnFresh

theorem branch (word : Lexeme) (name : Option Ident) : Statement (.branch pos word name) := by
  intro label j targets kept due l hj
  simp only [flow]
  exact leave word _ hj

theorem labeled (x : Ident) (h : Statement s) : Statement (.labeled x pos s) := by
  intro label j targets kept due l hj
  obtain ⟨d, hd⟩ := Layout.exists_label?_declare l x.name
  simp only [flow, hd, Option.map_some, Option.getD_some]
  rw [labelsOf, List.cons_append]
  exact (declare x.name).trans (.trans (.single (.land hd)) (h _ _ _ _ _ _ hj))

theorem block (h : Statements ss) : Statement (.block ⟨lbrace, ss, rbrace⟩) := by
  intro label j targets kept due l hj
  simp only [flow]
  exact h _ _ _ _ _ hj

theorem ite (c : Expr) {otherwise : Option Stmt} (hinit : Optional init) (hbody : Statements ss)
    (hother : Optional otherwise) :
    Statement (.ite pos init c ⟨lbrace, ss, rbrace⟩ otherwise) := by
  intro label j targets kept due l hj
  rw [labelsOf, List.append_assoc, List.append_assoc]
  refine (hinit _ _ _ _ _ hj).trans ?_
  cases otherwise with
  | none =>
    simp only [flow]
    refine fresh.trans (.trans (fresh_of Layout.size_fresh) (.trans
      (Site.Reaches.branch c (.swap _ _ _) ?_ ?_) (.trans (hbody _ _ _ _ _ ?_) (.trans
        (jump (.refl _) ?_) (narrow ?_)))))
    all_goals grind
  | some other =>
    simp only [flow]
    refine fresh.trans (.trans (fresh_of Layout.size_fresh) (.trans
      (fresh_of (by rw [Layout.size_fresh, Layout.size_fresh])) (.trans
        (Site.Reaches.branch c (((List.Perm.swap _ _ _).cons _).trans (.swap _ _ _)) ?_ ?_) (.trans
          (hbody _ _ _ _ _ ?_) (.trans (jump (.refl _) ?_) (.trans (hother _ _ _ _ _ ?_) (.trans
            (jump (.refl _) ?_) (narrow ?_))))))))
    all_goals grind

theorem switch (tag : Option Expr) (hinit : Optional init) (h : StepwiseClauses cs) :
    Statement (.switch pos init tag ⟨lbrace, cs, rbrace⟩) := by
  intro label j targets kept due l hj
  obtain ⟨l₁, hl₁⟩ : ∃ l₁, l₁ = (tag.map (·.key)).toList.foldl Layout.emit (flowOption j init l) :=
    ⟨_, rfl⟩
  obtain ⟨l₂, last, hcases⟩ : ∃ l₂ last,
      flowCases j l₁.size cs none none (l₁.fresh.bind label l₁.size none) = (l₂, last) := ⟨_, _, rfl⟩
  have hemits {kept due} : Site.Reaches ⟨targets, kept, due, flowOption j init l⟩
      ⟨targets, kept, due, l₁⟩ := by
    rw [hl₁]
    exact Site.Reaches.emits _
  have hclauses := Site.Reaches.cases (l₁.size :: targets) (l₁.size :: kept)
    (defaultLabels cs ++ due) (l₁.fresh.bind label l₁.size none) none none h List.mem_cons_self
    (List.subset_cons_of_subset _ hj) (List.nil_subset _)
  have hentered : entered cs none = [] := by
    unfold entered
    split <;> rfl
  rw [hcases, hentered] at hclauses
  simp only [Lays.flow_switch hl₁ hcases]
  rw [labelsOf, List.append_assoc]
  refine (hinit _ _ _ _ _ hj).trans (.trans hemits (fresh.trans (.trans
    (bindBreak label List.mem_cons_self) (sortClauses.trans (hclauses.trans ?_)))))
  have hskip {targets kept l} : Site.Reaches ⟨targets, kept, defaultLabels cs ++ due, l⟩
      ⟨targets, kept, due, l⟩ := skip _
  cases last with
  | none => exact hskip.trans (.trans (jump (.refl _) List.mem_cons_self) (narrow (by grind)))
  | some last =>
    obtain ⟨body, next⟩ := last
    have hblocks : defaultBlocks (some (body, next)) = [body, next] := rfl
    rw [hblocks]
    cases hdefault : flowDefault (j.inCase l₁.size next) cs ((l₂.jump body).goOn body) with
    | none =>
      simp only [hdefault, Option.getD_none]
      refine hskip.trans (.trans (forget (List.Subset.refl _)
        (List.sublist_cons_self body _).subperm (.refl _)) (.trans (jump (.refl _) ?_) (narrow ?_)))
      all_goals grind
    | some l' =>
      simp only [hdefault, Option.getD_some]
      refine .trans (jump (.refl _) ?_) (.trans (default h (Jumps.blocks_inCase ?_ ?_ ?_) hdefault)
        (.trans (jump (.refl _) ?_) (narrow ?_)))
      all_goals grind

theorem typeSwitch {assign : Stmt} (hinit : Optional init) (hassign : Statement assign)
    (h : StepwiseClauses cs) : Statement (.typeSwitch pos init assign ⟨lbrace, cs, rbrace⟩) := by
  intro label j targets kept due l hj
  simp only [flow]
  rw [labelsOf, List.append_assoc, List.append_assoc]
  refine (hinit _ _ _ _ _ hj).trans (.trans (hassign none _ _ _ _ _ hj) (fresh.trans (.trans
    (bindBreak label List.mem_cons_self) (sortClauses.trans (.trans
      (typeCases h List.mem_cons_self (List.subset_cons_of_subset _ hj)) ?_)))))
  exact .trans (defaultOrSkip h
      (Jumps.blocks_inClause (List.subset_cons_of_subset _ hj) List.mem_cons_self))
    (.trans (jump (.refl _) List.mem_cons_self) (narrow (List.subset_cons_self _ _)))

theorem select (h : StepwiseClauses cs) : Statement (.select pos ⟨lbrace, cs, rbrace⟩) := by
  intro label j targets kept due l hj
  simp only [flow]
  rw [labelsOf]
  refine sortClauses.trans ((Site.Reaches.comms h hj).trans (fresh.trans (.trans
    (bindBreak label List.mem_cons_self) (.trans
      (commCases h List.mem_cons_self (List.subset_cons_of_subset _ hj)) ?_))))
  split
  next l' hdefault =>
    exact .trans (commDefault h (Jumps.blocks_inClause (List.subset_cons_of_subset _ hj)
        List.mem_cons_self) hdefault)
      (.trans (jump (.refl _) List.mem_cons_self) (narrow (List.subset_cons_self _ _)))
  next => exact (skip _).trans (.trans (goOn (.refl _)) (narrow (List.subset_cons_self _ _)))

end Stepwise

namespace Site.Reaches

theorem freshFor {α : Type} {part : Option α} {otherwise n : Nat}
    (h : l.freshFor part otherwise = (n, l')) (ho : otherwise ∈ targets) :
    Reaches ⟨targets, kept, due, l⟩
      ⟨n :: targets, (part.toList.map fun _ => n) ++ kept, due, l'⟩ := by
  cases part with
  | none =>
    cases h
    exact narrow (List.cons_subset.mpr ⟨ho, List.Subset.refl _⟩)
  | some x =>
    cases h
    exact fresh

/-- The head of a loop is laid out, and the body is gone on in. -/
theorem loopHead {again body : Nat} {c : Option Expr} {kept' : List Nat}
    (hagain : c = none → again = body) (htargets : [again, body, done] ⊆ targets) :
    Reaches ⟨targets, kept' ++ ((c.toList.map fun _ => again) ++ (done :: body :: kept)), due, l⟩
      ⟨targets, kept' ++ done :: kept, due, l.enterLoop c again body done⟩ := by
  have hbody : (kept' ++ done :: body :: kept).Perm (body :: (kept' ++ done :: kept)) :=
    ((List.Perm.swap body done kept).append_left kept').trans List.perm_middle
  cases c with
  | none =>
    obtain rfl := hagain rfl
    exact jump hbody (htargets List.mem_cons_self)
  | some x =>
    refine .trans (jump List.perm_middle ?_) (branch x hbody ?_ ?_)
    all_goals grind

/-- What follows a round is laid out, and what follows the loop is gone on in. -/
theorem loopTail {again cont : Nat} {post : Option Stmt} (hpost : Stepwise.Optional post)
    (hj : j.blocks ⊆ targets) (htargets : [again, cont] ⊆ targets) :
    Reaches ⟨targets, (post.toList.map fun _ => cont) ++ (done :: kept), labelsOfOption post ++ due, l⟩
      ⟨targets, kept, due, l.leaveLoop j post again cont done⟩ := by
  cases post with
  | none => exact jump (.refl _) (htargets (List.mem_cons_of_mem _ List.mem_cons_self))
  | some p =>
    have hp kept due l := hpost j targets kept due l hj
    simp only [flowOption] at hp
    refine .trans (jump (.refl _) ?_) (.trans (hp _ _ _) (jump (.refl _) ?_))
    all_goals grind

end Site.Reaches

namespace Stepwise

open Site.Reaches

theorem forLoop (c : Option Expr) {post : Option Stmt} (hinit : Optional init)
    (hbody : Statements ss) (hpost : Optional post) :
    Statement (.forLoop pos init c post ⟨lbrace, ss, rbrace⟩) := by
  intro label j targets kept due l hj
  obtain ⟨l₁, hl₁⟩ : ∃ l₁, flowOption j init l = l₁ := ⟨_, rfl⟩
  obtain ⟨again, l₂, hagain⟩ : ∃ again l₂, l₁.fresh.fresh.freshFor c l₁.size = (again, l₂) :=
    ⟨_, _, rfl⟩
  obtain ⟨cont, l₃, hcont⟩ : ∃ cont l₃, l₂.freshFor post again = (cont, l₃) := ⟨_, _, rfl⟩
  have hnone : c = none → again = l₁.size := by
    rintro rfl
    cases hagain
    rfl
  have hinit kept due := hinit j targets kept due l hj
  simp only [hl₁] at hinit
  simp only [flow_forLoop hl₁ hagain hcont]
  rw [labelsOf, List.append_assoc, List.append_assoc]
  refine (hinit _ _).trans (fresh.trans (.trans (fresh_of Layout.size_fresh) (.trans
    (freshFor hagain ?_) (.trans (freshFor hcont ?_) (.trans (bind label ?_ ?_) (.trans
      (loopHead hnone ?_) (.trans (hbody _ _ _ _ _ (Jumps.blocks_inLoop ?_ ?_ ?_)) (.trans
        (loopTail hpost ?_ ?_) (narrow ?_)))))))))
  all_goals grind

theorem range (key value : Option Expr) (opPos : Option Pos) (op : Option Lexeme) (rangePos : Pos)
    (x : Expr) (hbody : Statements ss) :
    Statement (.range pos key value opPos op rangePos x ⟨lbrace, ss, rbrace⟩) := by
  intro label j targets kept due l hj
  obtain ⟨l₁, hl₁⟩ : ∃ l₁, (rangeKeys key value x).foldl Layout.emit l = l₁ := ⟨_, rfl⟩
  obtain ⟨l₂, hl₂⟩ : ∃ l₂, ((l₁.fresh.jump l₁.size).goOn l₁.size).fresh.fresh = l₂ := ⟨_, rfl⟩
  have hkeys {kept due} : Site.Reaches ⟨targets, kept, due, l⟩ ⟨targets, kept, due, l₁⟩ := by
    rw [← hl₁]
    exact Site.Reaches.emits _
  have hsize : ((l₁.fresh.jump l₁.size).goOn l₁.size).size = l₁.size + 1 := by
    rw [Layout.size_goOn, Layout.jump, Layout.size_follow, Layout.size_fresh]
  have hfresh {targets kept due} : Site.Reaches
      ⟨targets, kept, due, (l₁.fresh.jump l₁.size).goOn l₁.size⟩
      ⟨(l₁.size + 1 + 1) :: (l₁.size + 1) :: targets, (l₁.size + 1 + 1) :: (l₁.size + 1) :: kept, due,
        l₂⟩ := by
    rw [← hl₂]
    exact (fresh_of hsize).trans (fresh_of (by rw [Layout.size_fresh, hsize]))
  simp only [flow_range hl₁ hl₂]
  rw [labelsOf]
  refine hkeys.trans (fresh.trans (.trans (jump (.refl _) ?_) (hfresh.trans (.trans
    (fork (.swap _ _ _) ?_ ?_) (.trans (bind label ?_ ?_) (.trans
      (hbody _ _ _ _ _ (Jumps.blocks_inLoop ?_ ?_ ?_)) (.trans (jump (.refl _) ?_) (narrow ?_))))))))
  all_goals grind

/-- A clause outside of its switch or select is left out. -/
theorem of_clause (h : ∀ label j l, flow j label s l = l) : Statement s := by
  intro label j targets kept due l _
  simp only [h]
  exact skip _

end Stepwise

theorem StepwiseClauses.cons (h : StepwiseClauses cs)
    (hcase : ∀ {pos exprs colon ss}, c = .caseClause pos exprs colon ss → Stepwise.Statements ss)
    (hcomm : ∀ {pos comm colon ss}, c = .commClause pos comm colon ss →
      Stepwise.Optional comm ∧ Stepwise.Statements ss) : StepwiseClauses (c :: cs) where
  cases hc := (List.mem_cons.mp hc).elim (fun hc => hcase hc.symm) h.cases
  comms hc := (List.mem_cons.mp hc).elim (fun hc => hcomm hc.symm) h.comms

mutual

theorem stepwise (s : Stmt) : Stepwise.Statement s := by
  match s with
  | .bad .. | .send .. | .incDec .. | .go .. | .defer .. | .empty .. | .assign .. | .expr _ =>
    exact .of_isSimple rfl
  | .decl d => exact .decl d
  | .labeled x _ inner => exact .labeled x (stepwise inner)
  | .ret _ results => exact .ret results
  | .branch _ word name => exact .branch word name
  | .block ⟨_, ss, _⟩ => exact .block (stepwiseAll ss)
  | .ite _ init c ⟨_, ss, _⟩ otherwise =>
    exact .ite c (stepwiseOption init) (stepwiseAll ss) (stepwiseOption otherwise)
  | .switch _ init tag ⟨_, cs, _⟩ => exact .switch tag (stepwiseOption init) (stepwiseClauses cs)
  | .typeSwitch _ init assign ⟨_, cs, _⟩ =>
    exact .typeSwitch (stepwiseOption init) (stepwise assign) (stepwiseClauses cs)
  | .select _ ⟨_, cs, _⟩ => exact .select (stepwiseClauses cs)
  | .forLoop _ init c post ⟨_, ss, _⟩ =>
    exact .forLoop c (stepwiseOption init) (stepwiseAll ss) (stepwiseOption post)
  | .range _ key value opPos op rangePos x ⟨_, ss, _⟩ =>
    exact .range key value opPos op rangePos x (stepwiseAll ss)
  | .caseClause .. | .commClause .. => exact .of_clause fun _ _ _ => by rw [flow]

theorem stepwiseOption (s : Option Stmt) : Stepwise.Optional s := by
  match s with
  | none => exact .optionNone
  | some s => exact .optionSome (stepwise s)

theorem stepwiseAll (ss : List Stmt) : Stepwise.Statements ss := by
  match ss with
  | [] => exact .nil
  | s :: ss => exact .cons (stepwise s) (stepwiseAll ss)

theorem stepwiseClauses (cs : List Stmt) : StepwiseClauses cs := by
  match cs with
  | [] => exact ⟨nofun, nofun⟩
  | .caseClause _ _ _ ss :: cs =>
    exact (stepwiseClauses cs).cons (by rintro _ _ _ _ ⟨⟩; exact stepwiseAll ss) nofun
  | .commClause _ comm _ ss :: cs =>
    exact (stepwiseClauses cs).cons nofun
      (by rintro _ _ _ _ ⟨⟩; exact ⟨stepwiseOption comm, stepwiseAll ss⟩)
  | .bad .. :: cs | .send .. :: cs | .incDec .. :: cs | .go .. :: cs | .defer .. :: cs
  | .empty .. :: cs | .assign .. :: cs | .expr _ :: cs | .decl _ :: cs | .labeled .. :: cs
  | .ret .. :: cs | .branch .. :: cs | .block _ :: cs | .ite .. :: cs | .switch .. :: cs
  | .typeSwitch .. :: cs | .select .. :: cs | .forLoop .. :: cs | .range .. :: cs =>
    exact (stepwiseClauses cs).cons nofun nofun

end

end LosslessGo.Flow
