import LosslessGo.Proofs.Flow.Laid

/-!
# What follows a place

`Follows g E σ p` says that the blocks of `g` go on from place `p` with what is left to do in `σ`, where
`E` says which blocks the jumps at the head of `σ` lead to. A block that ends with a jump goes on where
the jump leads.

* `Follows.expand`, `Follows.split`, `Follows.enter` and `Follows.next` say that it is kept where a
  task is replaced by what it amounts to.
* `Follows.breakTo`, `Follows.continueTo` and `Follows.fallInto` find the tasks that a jump leads to.
-/

namespace LosslessGo.Flow

open Go

/-- The blocks of `g` go on from a place with what is left to do. Each task that a jump may leave out is
followed by the rest from some place on. -/
inductive Follows (g : Chart) : Env → List Task → Place → Prop where
  | nil {p : Place} : Ends g.blocks p [] → Follows g .none [] p
  | jump {E : Env} {σ : List Task} {p : Place} {b : Nat} :
    Ends g.blocks p [b] → Follows g E σ (.start b) → Follows g E σ p
  | emit {E : Env} {σ : List Task} {k : Key} {p q : Place} :
    Holds g.blocks p k q → Follows g E σ q → Follows g E (.emit k :: σ) p
  | fork {E E₁ E₂ : Env} {yes no σ : List Task} {p q : Place} {b c : Nat} :
    Ends g.blocks p [b, c] → Follows g E₁ (yes ++ σ) (.start b) →
      Follows g E₂ (no ++ σ) (.start c) → Follows g E σ q → Follows g E (.fork yes no :: σ) p
  | cond {E E₁ E₂ : Env} {x : Expr} {yes no σ : List Task} {p q : Place} {b c : Nat} :
    CondLaid g.blocks x p b c → Follows g E₁ (yes ++ σ) (.start b) →
      Follows g E₂ (no ++ σ) (.start c) → Follows g E σ q → Follows g E (.cond x yes no :: σ) p
  | stmt {E : Env} {label : Option String} {s : Stmt} {σ : List Task} {p q : Place} :
    Laid g E label s p q → Follows g E σ q → Follows g E (.stmt label s :: σ) p
  | clauses {E E' : Env} {ts σ : List Task} {p q : Place} :
    Follows g E' (ts ++ σ) p → Follows g E σ q → Follows g E (.clauses ts :: σ) p
  | loop {E : Env} {label : Option String} {o : Loop} {σ : List Task} {again cont done : Nat} :
    LoopLaid g E label o again cont done → Follows g E σ (.start done) →
      Follows g E (.loop label o :: σ) (.start again)
  | turn {E : Env} {label : Option String} {o : Loop} {σ : List Task} {p : Place}
      {again cont done : Nat} :
    Ends g.blocks p [cont] → LoopLaid g E label o again cont done → Follows g E σ (.start done) →
      Follows g (E.inLoop label done cont) (.turn label o :: σ) p
  | leave {E : Env} {label : Option String} {cs : List Stmt} {σ : List Task} {p : Place}
      {done : Nat} {bodies : List Nat} :
    Ends g.blocks p [done] → BodiesLaid g E label done cs bodies → Follows g E σ (.start done) →
      Follows g (E.inClause label done bodies.head?) (.leave label cs :: σ) p
  | halt {E : Env} {σ : List Task} {p q : Place} :
    Ends g.blocks p [] → Follows g E σ q → Follows g E (.halt :: σ) p

variable {g : Chart} {E E' E₁ E₂ : Env} {σ : List Task} {p q : Place} {label : Option String}

/-- The clauses of a switch and their blocks stand side by side. -/
theorem BodiesLaid.inv {done : Nat} {cs : List Stmt} {bodies : List Nat}
    (h : BodiesLaid g E label done cs bodies) :
    (cs = [] ∧ bodies = []) ∨ ∃ pos exprs colon ss cs' body bodies',
      cs = .caseClause pos exprs colon ss :: cs' ∧ bodies = body :: bodies' ∧
      (∃ m, LaidAll g (E.inClause label done bodies'.head?) ss (.start body) m ∧
        Ends g.blocks m [done]) ∧ BodiesLaid g E label done cs' bodies' := by
  unfold BodiesLaid at h
  split at h
  next => exact .inl ⟨rfl, rfl⟩
  next => exact .inr ⟨_, _, _, _, _, _, _, rfl, rfl, h⟩
  next => cases h

namespace Follows

/-! ## Tasks in order -/

theorem emits {ks : List Key} (h : HoldAll g.blocks ks p q) (hσ : Follows g E σ q) :
    Follows g E (emits ks ++ σ) p := by
  induction ks generalizing p with
  | nil =>
    obtain rfl := h
    exact hσ
  | cons k ks ih =>
    obtain ⟨r, hk, hks⟩ := h
    exact .emit hk (ih hks)

theorem run {ss : List Stmt} (h : LaidAll g E ss p q) (hσ : Follows g E σ q) :
    Follows g E (run ss ++ σ) p := by
  induction ss generalizing p with
  | nil =>
    rw [LaidAll] at h
    obtain rfl := h
    exact hσ
  | cons s ss ih =>
    rw [LaidAll] at h
    obtain ⟨r, hs, hss⟩ := h
    exact .stmt hs (ih hss)

theorem runOption {s : Option Stmt} (h : LaidOption g E s p q) (hσ : Follows g E σ q) :
    Follows g E (runOption s ++ σ) p := by
  cases s with
  | none =>
    rw [LaidOption] at h
    obtain rfl := h
    exact hσ
  | some s =>
    rw [LaidOption] at h
    exact .stmt h hσ

theorem runVia {s : Option Stmt} {b done : Nat} (h : LaidVia g E s b done)
    (hσ : Follows g E σ (.start done)) : Follows g E (Flow.runOption s ++ σ) (.start b) := by
  cases s with
  | none =>
    rw [LaidVia] at h
    obtain rfl := h
    exact hσ
  | some s =>
    rw [LaidVia] at h
    obtain ⟨m, hs, hends⟩ := h
    exact .stmt hs (.jump hends hσ)

/-! ## Loops -/

section

variable {o : Loop} {again cont done : Nat}

theorem round {body : Nat} (h : LoopLaid g E label o again cont done)
    (hbody : ∃ m, LaidAll g (E.inLoop label done cont) o.body (.start body) m ∧
      Ends g.blocks m [cont])
    (hσ : Follows g E σ (.start done)) :
    Follows g (E.inLoop label done cont) (o.round label ++ σ) (.start body) := by
  obtain ⟨m, hlaid, hends⟩ := hbody
  rw [Loop.round, List.append_assoc]
  exact run hlaid (.turn hends h hσ)

theorem enter (h : LoopLaid g E label o again cont done) (hσ : Follows g E σ (.start done)) :
    ∃ E', Follows g E' (o.enter label ++ σ) (.start again) := by
  obtain ⟨body, hguard, hbody, -⟩ := id h
  have hround := round h hbody hσ
  unfold Loop.enter
  split
  next ho =>
    rw [ho] at hguard
    obtain rfl : body = again := hguard
    exact ⟨_, hround⟩
  next c ho =>
    rw [ho] at hguard
    exact ⟨E, .cond hguard hround hσ hσ⟩
  next ho =>
    rw [ho] at hguard
    exact ⟨E, .fork hguard hround hσ hσ⟩

theorem next (h : LoopLaid g E label o again cont done) (hσ : Follows g E σ (.start done)) :
    Follows g E (o.next label ++ σ) (.start cont) := by
  obtain ⟨body, -, -, hpost⟩ := id h
  rw [Loop.next, List.append_assoc]
  exact runVia hpost (.loop h hσ)

end

/-! ## Conditions -/

theorem split {x : Expr} {yes no : List Task} {b c : Nat} (h : CondLaid g.blocks x p b c)
    (hyes : Follows g E₁ (yes ++ σ) (.start b)) (hno : Follows g E₂ (no ++ σ) (.start c))
    (hσ : Follows g E σ q) : Follows g E (split yes no x ++ σ) p := by
  unfold Flow.split
  split
  next =>
    obtain ⟨m, hx, hy⟩ := h
    exact .cond hx (.cond hy hyes hno hσ) hno hσ
  next =>
    obtain ⟨m, hx, hy⟩ := h
    exact .cond hx hyes (.cond hy hyes hno hσ) hσ
  next => exact .cond h hno hyes hσ
  next => exact .cond h hyes hno hσ
  next hand hor hnot hparen =>
    rw [CondLaid.eq_5 _ _ _ _ _ hand hor hnot hparen] at h
    obtain ⟨r, hx, hends⟩ := h
    exact .emit hx (.fork hends hyes hno hσ)

/-! ## Jumps -/

theorem breakTo {name : Option String} {t : Nat} (h : Follows g E σ p) (ht : E.brkOf name = some t) :
    ∃ σ', Flow.breakTo name σ = some σ' ∧ ∃ E', Follows g E' σ' (.start t) := by
  induction h with
  | nil => cases name <;> cases ht
  | jump _ _ ih => exact ih ht
  | emit _ _ ih => exact ih ht
  | fork _ _ _ _ _ _ ih => exact ih ht
  | cond _ _ _ _ _ _ ih => exact ih ht
  | stmt _ _ ih => exact ih ht
  | clauses _ _ _ ih => exact ih ht
  | loop _ _ ih => exact ih ht
  | halt _ _ ih => exact ih ht
  | @turn E label o σ p again cont done _ _ hσ ih =>
    rw [Flow.breakTo]
    cases name with
    | none =>
      cases ht
      exact ⟨σ, if_pos rfl, E, hσ⟩
    | some x =>
      rw [Env.brkOf, Env.inLoop, Env.lookup_labelled] at ht
      split at ht
      next hx =>
        cases ht
        exact ⟨σ, if_pos (by simp [aims, hx]), E, hσ⟩
      next hx =>
        rw [if_neg (by simpa [aims] using Ne.symm hx)]
        exact ih ht
  | @leave E label cs σ p done bodies _ _ hσ ih =>
    rw [Flow.breakTo]
    cases name with
    | none =>
      cases ht
      exact ⟨σ, if_pos rfl, E, hσ⟩
    | some x =>
      rw [Env.brkOf, Env.inClause, Env.lookup_labelled] at ht
      split at ht
      next hx =>
        cases ht
        exact ⟨σ, if_pos (by simp [aims, hx]), E, hσ⟩
      next hx =>
        rw [if_neg (by simpa [aims] using Ne.symm hx)]
        exact ih ht

theorem continueTo {name : Option String} {t : Nat} (h : Follows g E σ p)
    (ht : E.contOf name = some t) :
    ∃ σ', Flow.continueTo name σ = some σ' ∧ ∃ E', Follows g E' σ' (.start t) := by
  induction h with
  | nil => cases name <;> cases ht
  | jump _ _ ih => exact ih ht
  | emit _ _ ih => exact ih ht
  | fork _ _ _ _ _ _ ih => exact ih ht
  | cond _ _ _ _ _ _ ih => exact ih ht
  | stmt _ _ ih => exact ih ht
  | clauses _ _ _ ih => exact ih ht
  | loop _ _ ih => exact ih ht
  | halt _ _ ih => exact ih ht
  | @turn E label o σ p again cont done _ hloop hσ ih =>
    rw [Flow.continueTo]
    cases name with
    | none =>
      cases ht
      exact ⟨_, if_pos rfl, E, next hloop hσ⟩
    | some x =>
      rw [Env.contOf, Env.inLoop, Env.lookup_labelled] at ht
      split at ht
      next hx =>
        cases ht
        exact ⟨_, if_pos (by simp [aims, hx]), E, next hloop hσ⟩
      next hx =>
        rw [if_neg (by simpa [aims] using Ne.symm hx)]
        exact ih ht
  | @leave E label cs σ p done bodies _ _ hσ ih =>
    rw [Flow.continueTo]
    · cases name <;> exact ih ht
    · nofun

theorem clause {cs : List Stmt} {ss : List Stmt} {body done : Nat} {bodies : List Nat}
    (hlaid : ∃ m, LaidAll g (E.inClause label done bodies.head?) ss (.start body) m ∧
      Ends g.blocks m [done])
    (hbodies : BodiesLaid g E label done cs bodies) (hσ : Follows g E σ (.start done)) :
    Follows g (E.inClause label done bodies.head?) (clause label ss cs ++ σ) (.start body) := by
  obtain ⟨m, hlaid, hends⟩ := hlaid
  rw [Flow.clause, List.append_assoc]
  exact run hlaid (.leave hends hbodies hσ)

theorem fallInto {t : Nat} (h : Follows g E σ p) (ht : E.next = some t) :
    ∃ σ', Flow.fallInto σ = some σ' ∧ ∃ E', Follows g E' σ' (.start t) := by
  induction h with
  | nil => cases ht
  | jump _ _ ih => exact ih ht
  | emit _ _ ih => exact ih ht
  | fork _ _ _ _ _ _ ih => exact ih ht
  | cond _ _ _ _ _ _ ih => exact ih ht
  | stmt _ _ ih => exact ih ht
  | clauses _ _ _ ih => exact ih ht
  | loop _ _ ih => exact ih ht
  | halt _ _ ih => exact ih ht
  | turn => cases ht
  | @leave E label cs σ p done bodies _ hbodies hσ ih =>
    rcases hbodies.inv with ⟨rfl, rfl⟩ | ⟨pos, exprs, colon, ss, cs, body, bodies, rfl, rfl, hlaid, hrest⟩
    · cases ht
    · obtain rfl : body = t := Option.some.inj ht
      exact ⟨_, rfl, _, clause hlaid hrest hσ⟩

/-! ## Switches -/

section

variable {done : Nat} {cs : List Stmt} {otherwise : List Task}

/-- Where the expressions of a clause are compared with, each match leads to the clause. -/
theorem compares {enter next : List Task} {body : Nat} {exprs : List Expr} {q' : Place}
    (h : ComparesLaid g.blocks body exprs p q) (henter : Follows g E₁ (enter ++ σ) (.start body))
    (hnext : Follows g E₂ (next ++ σ) q) (hσ : Follows g E σ q') :
    ∃ E', Follows g E' (compares enter next exprs ++ σ) p := by
  induction exprs generalizing p with
  | nil =>
    obtain rfl := h
    exact ⟨E₂, hnext⟩
  | cons x xs ih =>
    obtain ⟨r, n, hx, hends, hxs⟩ := h
    obtain ⟨E', hrest⟩ := ih hxs
    exact ⟨E, .emit hx (.fork hends henter hrest hσ)⟩

theorem cases {bodies : List Nat} (h : CasesLaid g.blocks cs bodies p q)
    (hbodies : BodiesLaid g E label done cs bodies) (hσ : Follows g E σ (.start done))
    (hotherwise : Follows g E₁ (otherwise ++ σ) q) :
    ∃ E', Follows g E' (cases label otherwise cs ++ σ) p := by
  induction cs generalizing p bodies with
  | nil =>
    obtain rfl : q = p := by
      cases bodies <;> exact h
    exact ⟨E₁, hotherwise⟩
  | cons c cs ih =>
    rcases hbodies.inv with ⟨hnil, -⟩ | ⟨pos, exprs, colon, ss, cs', body, bodies, hc, rfl, hlaid, hrest⟩
    · cases hnil
    · cases hc
      obtain ⟨r, hexprs, hcases⟩ := h
      obtain ⟨E', hnext⟩ := ih hcases hrest
      exact compares hexprs (clause hlaid hrest hσ) hnext hσ

theorem defaultCase {bodies : List Nat} (hbodies : BodiesLaid g E label done cs bodies)
    (hσ : Follows g E σ (.start done)) :
    ∃ E', Follows g E' (defaultCase label cs ++ σ) (.start (defaultBody done cs bodies)) := by
  induction cs generalizing bodies with
  | nil =>
    rcases hbodies.inv with ⟨-, rfl⟩ | ⟨_, _, _, _, _, _, _, hc, -⟩
    · exact ⟨E, hσ⟩
    · cases hc
  | cons c cs ih =>
    rcases hbodies.inv with ⟨hnil, -⟩ | ⟨pos, exprs, colon, ss, cs', body, bodies, hc, rfl, hlaid, hrest⟩
    · cases hnil
    · cases hc
      cases exprs with
      | nil =>
        rw [defaultBody, defaultEntry, if_pos List.isEmpty_nil]
        exact ⟨_, clause hlaid hrest hσ⟩
      | cons x xs =>
        have h := ih hrest
        rw [defaultBody] at h ⊢
        rw [defaultEntry, List.isEmpty_cons, if_neg Bool.false_ne_true]
        exact h

theorem switchTask {bodies : List Nat} (h : CasesLaid g.blocks cs bodies p q)
    (hends : Ends g.blocks q [defaultBody done cs bodies])
    (hbodies : BodiesLaid g E label done cs bodies) (hσ : Follows g E σ (.start done)) :
    Follows g E (switchTask label cs :: σ) p := by
  obtain ⟨E₁, hdefault⟩ := defaultCase hbodies hσ
  obtain ⟨E', hcases⟩ := cases h hbodies hσ (.jump hends hdefault)
  exact .clauses hcases hσ

/-! ## Type switches -/

theorem compareAll {enter next : List Task} {body : Nat} {types : List Expr} {q' : Place}
    (h : CompareAllLaid g.blocks body types p q) (henter : Follows g E₁ (enter ++ σ) (.start body))
    (hnext : Follows g E₂ (next ++ σ) q) (hσ : Follows g E σ q') :
    ∃ E', Follows g E' (compareAll enter next types ++ σ) p := by
  induction types generalizing p with
  | nil =>
    obtain rfl := h
    exact ⟨E₂, hnext⟩
  | cons x xs ih =>
    obtain ⟨n, hends, hxs⟩ := h
    obtain ⟨E', hrest⟩ := ih hxs
    exact ⟨E, .fork hends henter hrest hσ⟩

/-- The statements of a clause that falls into no other one. -/
theorem lastClause {ss : List Stmt} (h : ∃ m, LaidAll g (E.inClause label done none) ss p m ∧
      Ends g.blocks m [done]) (hσ : Follows g E σ (.start done)) :
    Follows g (E.inClause label done none) (Flow.clause label ss [] ++ σ) p := by
  obtain ⟨m, hlaid, hends⟩ := h
  rw [Flow.clause, List.append_assoc]
  have hbodies : BodiesLaid g E label done [] [] := by
    rw [BodiesLaid]
    trivial
  exact run hlaid (.leave hends hbodies hσ)

theorem types (h : TypesLaid g E label done cs p q) (hσ : Follows g E σ (.start done))
    (hotherwise : Follows g E₁ (otherwise ++ σ) q) :
    ∃ E', Follows g E' (types label otherwise cs ++ σ) p := by
  induction cs generalizing p with
  | nil =>
    rw [TypesLaid] at h
    obtain rfl := h
    exact ⟨E₁, hotherwise⟩
  | cons c cs ih =>
    unfold TypesLaid at h
    split at h
    next heq => cases heq
    next exprs colon ss cs' heq =>
      cases heq
      split at h
      next hnil =>
        obtain rfl := List.isEmpty_iff.mp hnil
        exact ih h
      next =>
        obtain ⟨body, r, htypes, hlaid, hrest⟩ := h
        obtain ⟨E', hnext⟩ := ih hrest
        exact compareAll htypes (lastClause hlaid hσ) hnext hσ
    next => cases h

theorem defaultType (h : DefaultTypeLaid g E label done cs p) (hσ : Follows g E σ (.start done)) :
    ∃ E', Follows g E' (defaultType label cs ++ σ) p := by
  induction cs with
  | nil =>
    rw [DefaultTypeLaid] at h
    exact ⟨E, .jump h hσ⟩
  | cons c cs ih =>
    unfold DefaultTypeLaid at h
    split at h
    next heq => cases heq
    next exprs colon ss cs' heq =>
      cases heq
      cases exprs with
      | nil =>
        rw [if_pos List.isEmpty_nil] at h
        rw [Flow.defaultType]
        exact ⟨_, lastClause h hσ⟩
      | cons x xs =>
        rw [List.isEmpty_cons, if_neg Bool.false_ne_true] at h
        rw [Flow.defaultType.eq_3 _ _ _ fun _ _ _ heq => by cases heq]
        exact ih h
    next hne heq =>
      cases heq
      rw [Flow.defaultType.eq_3 _ _ _ fun pos => hne pos []]
      exact ih h

theorem typeTask (h : TypesLaid g E label done cs p q) (hdefault : DefaultTypeLaid g E label done cs q)
    (hσ : Follows g E σ (.start done)) : Follows g E (typeTask label cs :: σ) p := by
  obtain ⟨E₁, hdefault⟩ := defaultType hdefault hσ
  obtain ⟨E', htypes⟩ := types h hσ hdefault
  exact .clauses htypes hσ

/-! ## Selects -/

theorem comms (h : CommsLaid g E cs p q) (hσ : Follows g E σ q) :
    Follows g E (comms cs ++ σ) p := by
  induction cs generalizing p with
  | nil =>
    rw [CommsLaid] at h
    obtain rfl := h
    exact hσ
  | cons c cs ih =>
    unfold CommsLaid at h
    split at h
    next heq => cases heq
    next heq =>
      cases heq
      obtain ⟨r, hcomm, hrest⟩ := h
      rw [Flow.comms]
      exact .stmt hcomm (ih hrest)
    next hne heq =>
      cases heq
      rw [Flow.comms.eq_3 _ _ hne]
      exact ih h

theorem proceeds (h : ProceedsLaid g E label done cs p q) (hσ : Follows g E σ (.start done))
    (hotherwise : Follows g E₁ (otherwise ++ σ) q) :
    ∃ E', Follows g E' (proceeds label otherwise cs ++ σ) p := by
  induction cs generalizing p with
  | nil =>
    rw [ProceedsLaid] at h
    obtain rfl := h
    exact ⟨E₁, hotherwise⟩
  | cons c cs ih =>
    unfold ProceedsLaid at h
    split at h
    next heq => cases heq
    next heq =>
      cases heq
      rw [Flow.proceeds]
      obtain ⟨body, n, r, hends, hassigned, hlaid, hrest⟩ := h
      obtain ⟨E', hnext⟩ := ih hrest
      have henter := emits hassigned (lastClause hlaid hσ)
      rw [← List.append_assoc] at henter
      exact ⟨E, .fork hends henter hnext hσ⟩
    next hne heq =>
      cases heq
      rw [Flow.proceeds.eq_3 _ _ _ _ hne]
      exact ih h

theorem defaultComm (h : DefaultCommLaid g E label done cs p) (hσ : Follows g E σ (.start done)) :
    ∃ E', Follows g E' (defaultComm label cs ++ σ) p := by
  induction cs with
  | nil =>
    rw [DefaultCommLaid] at h
    exact ⟨E, .halt h hσ⟩
  | cons c cs ih =>
    unfold DefaultCommLaid at h
    split at h
    next heq => cases heq
    next heq =>
      cases heq
      rw [Flow.defaultComm]
      exact ⟨_, lastClause h hσ⟩
    next hne heq =>
      cases heq
      rw [Flow.defaultComm.eq_3 _ _ _ hne]
      exact ih h

theorem selectTask (h : ProceedsLaid g E label done cs p q)
    (hdefault : DefaultCommLaid g E label done cs q) (hσ : Follows g E σ (.start done)) :
    Follows g E (selectTask label cs :: σ) p := by
  obtain ⟨E₁, hdefault⟩ := defaultComm hdefault hσ
  obtain ⟨E', hproceeds⟩ := proceeds h hσ hdefault
  exact .clauses hproceeds hσ

end

/-! ## Statements -/

/-- What a statement amounts to follows the place of the statement. -/
theorem expand {s : Stmt} (h : Laid g E label s p q) (hs : isJump s = false) (hσ : Follows g E σ q) :
    Follows g E (expand label s ++ σ) p := by
  cases s with
  | decl d =>
    rw [Laid] at h
    exact emits h hσ
  | labeled x colon s =>
    rw [Laid] at h
    obtain ⟨t, -, hends, hlaid⟩ := h
    exact .jump hends (.stmt hlaid hσ)
  | ret pos results =>
    rw [Laid] at h
    obtain ⟨r, hkey, hends⟩ := h
    exact .emit hkey (.halt hends hσ)
  | branch pos word name => cases hs
  | block b =>
    obtain ⟨lbrace, ss, rbrace⟩ := b
    rw [Laid] at h
    exact run h hσ
  | ite pos init c b otherwise =>
    obtain ⟨lbrace, ss, rbrace⟩ := b
    rw [Laid] at h
    obtain ⟨r, yes, no, done, hinit, hcond, ⟨m, hlaid, hends⟩, hother, rfl⟩ := h
    rw [Flow.expand, List.append_assoc]
    exact runOption hinit (.cond hcond (run hlaid (.jump hends hσ)) (runVia hother hσ) hσ)
  | switch pos init tag b =>
    obtain ⟨lbrace, cs, rbrace⟩ := b
    rw [Laid] at h
    obtain ⟨r, m, n, bodies, done, hinit, htag, hcases, hends, hbodies, rfl⟩ := h
    rw [Flow.expand, List.append_assoc, List.append_assoc]
    exact runOption hinit (emits htag (switchTask hcases hends hbodies hσ))
  | typeSwitch pos init assign b =>
    obtain ⟨lbrace, cs, rbrace⟩ := b
    rw [Laid] at h
    obtain ⟨r, m, n, done, hinit, hassign, htypes, hdefault, rfl⟩ := h
    rw [Flow.expand, List.append_assoc]
    exact runOption hinit (.stmt hassign (typeTask htypes hdefault hσ))
  | select pos b =>
    obtain ⟨lbrace, cs, rbrace⟩ := b
    rw [Laid] at h
    obtain ⟨m, n, done, hcomms, hproceeds, hdefault, rfl⟩ := h
    rw [Flow.expand, List.append_assoc]
    exact comms hcomms (selectTask hproceeds hdefault hσ)
  | forLoop pos init c post b =>
    obtain ⟨lbrace, ss, rbrace⟩ := b
    rw [Laid] at h
    obtain ⟨r, again, body, cont, done, hinit, hends, hguard, hlaid, hpost, rfl⟩ := h
    rw [Flow.expand, List.append_assoc]
    exact runOption hinit (.jump hends (.loop ⟨body, hguard, hlaid, hpost⟩ hσ))
  | range pos key value opPos op rangePos x b =>
    obtain ⟨lbrace, ss, rbrace⟩ := b
    rw [Laid] at h
    obtain ⟨r, again, body, done, hkeys, hends, hguard, hlaid, rfl⟩ := h
    rw [Flow.expand, List.append_assoc]
    exact emits hkeys (.jump hends (.loop ⟨body, hguard, hlaid, by rw [LaidVia]⟩ hσ))
  | caseClause => rw [Laid] at h; cases h
  | commClause => rw [Laid] at h; cases h
  | _ => rw [Laid] at h; exact .emit h hσ

end Follows

end LosslessGo.Flow
