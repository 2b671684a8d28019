import LosslessGo.Proofs.Flow.Locate
import LosslessGo.Proofs.Flow.Statements

/-!
# The blocks of a body and how it runs

The keys that a well-formed body emits, up to any step, are those that are read along the paths of its
blocks, up to any node.

* `Follows.step`: each step of a run is a part of a walk through the blocks.
* `Follows.settles`: before a walk goes on, a run does some steps that emit nothing. `weight` bounds
  them.
* `blocksOf_simulates` puts both together.
-/

namespace LosslessGo.Flow

open Go

/-- The blocks of `g` are those of a well-formed body. -/
structure IsChart (g : Chart) (body : List Stmt) : Prop where
  labels : g.labels = labelsOfAll body
  wellFormed : wellFormedAll g.labels .none body = true
  laid : ∃ q, LaidAll g .none body (.start 0) q ∧ Ends g.blocks q []

theorem isChart_chartOf {body : Go.Block} (h : WellFormed body) : IsChart (chartOf body) body.stmts where
  labels := rfl
  wellFormed := h.2
  laid := blocksOf_laid h

variable {g : Chart} {body : List Stmt} {E : Env} {σ σ' : List Task} {p : Place} {ks : List Key}

/-! ## From a run to a walk -/

/-- A jump leads to what follows its target. -/
theorem Follows.jumpTo (hg : IsChart g body) (h : Follows g E σ p) {word : Lexeme}
    {name : Option String} {t : Nat} (ht : E.target g word name = some t) :
    ∃ σ', Flow.jumpTo body word name σ = some σ' ∧ ∃ E', Follows g E' σ' (.start t) := by
  unfold Env.target at ht
  split at ht
  next => exact h.breakTo ht
  next => exact h.continueTo ht
  next => exact h.fallInto ht
  next x =>
    split at ht
    next hx =>
      obtain ⟨q, hlaid, hends⟩ := hg.laid
      rw [hg.labels] at hx
      obtain ⟨σ', t', hσ', ht', hf⟩ :=
        (locateAll_finds body hg.wellFormed hlaid (.nil hends)).holds hx
      obtain rfl : t' = t := Option.some.inj (ht'.symm.trans ht)
      exact ⟨σ', hσ', hf⟩
    next => cases ht
  next => cases ht

/-- What is left to do after a step follows a place that a walk reaches with the key that is emitted. -/
theorem Follows.step (hg : IsChart g body) (h : Follows g E σ p) {k : Option Key}
    (hs : Step body σ k σ') :
    ∃ q E', (∀ ks, Walk g.blocks q ks → Walk g.blocks p (k.toList ++ ks)) ∧ Follows g E' σ' q := by
  induction h with
  | nil => cases hs
  | jump hends _ ih =>
    obtain ⟨q, E', hwalk, hf⟩ := ih hs
    exact ⟨q, E', fun ks hq => .jump hends List.mem_cons_self (hwalk ks hq), hf⟩
  | emit hk hσ =>
    cases hs
    exact ⟨_, _, fun ks hq => .emit hk hq, hσ⟩
  | fork hends hyes hno =>
    cases hs with
    | yes => exact ⟨_, _, fun ks hq => .jump hends List.mem_cons_self hq, hyes⟩
    | no => exact ⟨_, _, fun ks hq => .jump hends (List.mem_cons_of_mem _ List.mem_cons_self) hq, hno⟩
  | cond hc hyes hno hσ =>
    cases hs
    exact ⟨_, _, fun ks hq => hq, .split hc hyes hno hσ⟩
  | stmt hlaid hσ =>
    cases hs with
    | stmt hj => exact ⟨_, _, fun ks hq => hq, .expand hlaid hj hσ⟩
    | jump hσ' =>
      rw [Laid] at hlaid
      obtain ⟨t, ht, hends⟩ := hlaid
      obtain ⟨τ, hτ, E', hf⟩ := hσ.jumpTo hg ht
      obtain rfl : τ = σ' := Option.some.inj (hτ.symm.trans hσ')
      exact ⟨_, _, fun ks hq => .jump hends List.mem_cons_self hq, hf⟩
  | clauses hts =>
    cases hs
    exact ⟨_, _, fun ks hq => hq, hts⟩
  | loop hloop hσ =>
    cases hs
    obtain ⟨E', hf⟩ := enter hloop hσ
    exact ⟨_, _, fun ks hq => hq, hf⟩
  | turn hends hloop hσ =>
    cases hs
    exact ⟨_, _, fun ks hq => .jump hends List.mem_cons_self hq, next hloop hσ⟩
  | leave hends _ hσ =>
    cases hs
    exact ⟨_, _, fun ks hq => .jump hends List.mem_cons_self hq, hσ⟩
  | halt => cases hs

theorem Emits.walk (hg : IsChart g body) (h : Emits body σ ks) (hf : Follows g E σ p) :
    Walk g.blocks p ks := by
  induction h generalizing E p with
  | stop => exact .stop
  | step hs _ ih =>
    obtain ⟨q, E', hwalk, hf⟩ := hf.step hg hs
    exact hwalk _ (ih hf)

/-! ## From a walk to a run -/

mutual

/-- A bound of the steps that a task does before it emits a key or ends. -/
noncomputable def Task.weight : Task → Nat
  | .stmt _ s => sizeOf s
  | .cond c _ _ => sizeOf c
  | .clauses ts => 1 + weightAll ts
  | .loop _ o => 1 + sizeOf o.guard + sizeOf o.body
  | _ => 0

/-- A bound of the steps that tasks do. -/
noncomputable def weightAll : List Task → Nat
  | [] => 0
  | t :: ts => t.weight + weightAll ts

end

theorem weightAll_append (ts us : List Task) : weightAll (ts ++ us) = weightAll ts + weightAll us := by
  induction ts with
  | nil => simp [weightAll]
  | cons t ts ih =>
    rw [List.cons_append, weightAll, weightAll, ih, Nat.add_assoc]

theorem weightAll_emits (ks : List Key) : weightAll (emits ks) = 0 := by
  induction ks with
  | nil => rfl
  | cons k ks ih =>
    show Task.weight (.emit k) + weightAll (emits ks) = 0
    rw [ih]
    rfl

theorem weightAll_run (ss : List Stmt) : weightAll (run ss) < sizeOf ss := by
  induction ss with
  | nil => simp [run, weightAll]
  | cons s ss ih =>
    show sizeOf s + weightAll (run ss) < _
    rw [List.cons.sizeOf_spec]
    omega

theorem weightAll_runOption (s : Option Stmt) : weightAll (runOption s) < sizeOf s := by
  cases s with
  | none => simp [runOption, run, weightAll]
  | some s => simp [runOption, run, weightAll, Task.weight]

theorem sizeOf_expr_pos (x : Expr) : 0 < sizeOf x := by
  refine Nat.pos_of_ne_zero ?_
  cases x <;> simp

theorem sizeOf_stmt_pos (s : Stmt) : 0 < sizeOf s := by
  refine Nat.pos_of_ne_zero ?_
  cases s <;> simp

theorem weightAll_split (yes no : List Task) (x : Expr) : weightAll (split yes no x) < sizeOf x := by
  unfold split
  split
  next => simp [weightAll, Task.weight]; omega
  next => simp [weightAll, Task.weight]; omega
  next => simp [weightAll, Task.weight]
  next => simp [weightAll, Task.weight]; omega
  next => exact sizeOf_expr_pos x

theorem weightAll_enter (label : Option String) (o : Loop) :
    weightAll (o.enter label) < Task.weight (.loop label o) := by
  have hround : weightAll (o.round label) < sizeOf o.body := by
    rw [Loop.round, weightAll_append]
    exact weightAll_run o.body
  unfold Loop.enter
  rw [Task.weight]
  split
  next => omega
  next c hc =>
    rw [hc]
    simp [weightAll, Task.weight]
    omega
  next =>
    show 0 < _
    omega

/-! ### Clauses -/

theorem weightAll_clause (label : Option String) (ss cs : List Stmt) :
    weightAll (clause label ss cs) < sizeOf ss := by
  rw [clause, weightAll_append]
  exact weightAll_run ss

theorem weightAll_defaultCase (label : Option String) (cs : List Stmt) :
    weightAll (defaultCase label cs) < sizeOf cs := by
  fun_induction defaultCase label cs with
  | case1 => simp [weightAll]
  | case2 pos colon ss cs =>
    have h := weightAll_clause label ss cs
    simp
    omega
  | case3 cs c _ ih =>
    simp
    omega

theorem weightAll_cases (label : Option String) (otherwise : List Task) (cs : List Stmt) :
    weightAll (cases label otherwise cs) ≤ weightAll otherwise := by
  have hcompares (enter next : List Task) (xs : List Expr) :
      weightAll (compares enter next xs) ≤ weightAll next := by
    cases xs <;> simp [compares, weightAll, Task.weight]
  fun_induction cases label otherwise cs with
  | case1 => exact Nat.le_refl _
  | case2 pos exprs colon ss cs ih => exact (hcompares _ _ _).trans ih
  | case3 cs c _ ih => exact ih

theorem weightAll_defaultType (label : Option String) (cs : List Stmt) :
    weightAll (defaultType label cs) < sizeOf cs := by
  fun_induction defaultType label cs with
  | case1 => simp [weightAll]
  | case2 pos colon ss cs =>
    have h := weightAll_clause label ss []
    simp
    omega
  | case3 cs c _ ih =>
    simp
    omega

theorem weightAll_types (label : Option String) (otherwise : List Task) (cs : List Stmt) :
    weightAll (types label otherwise cs) ≤ weightAll otherwise := by
  have hcompares (enter next : List Task) (xs : List Expr) :
      weightAll (compareAll enter next xs) ≤ weightAll next := by
    cases xs <;> simp [compareAll, weightAll, Task.weight]
  fun_induction types label otherwise cs with
  | case1 => exact Nat.le_refl _
  | case2 pos exprs colon ss cs ih => exact (hcompares _ _ _).trans ih
  | case3 cs c _ ih => exact ih

theorem weightAll_proceeds (label : Option String) (otherwise : List Task) (cs : List Stmt) :
    weightAll (proceeds label otherwise cs) ≤ weightAll otherwise := by
  fun_induction proceeds label otherwise cs with
  | case1 => exact Nat.le_refl _
  | case2 => simp [weightAll, Task.weight]
  | case3 cs c _ ih => exact ih

/-- The communications and the default clause are different clauses. -/
theorem weightAll_comms (label : Option String) (cs : List Stmt) :
    weightAll (comms cs) + weightAll (defaultComm label cs) < sizeOf cs := by
  induction cs with
  | nil => simp [comms, defaultComm, weightAll, Task.weight]
  | cons c cs ih =>
    have hcons : sizeOf (c :: cs) = 1 + sizeOf c + sizeOf cs := rfl
    by_cases hsome : ∃ pos comm colon ss, c = .commClause pos (some comm) colon ss
    · obtain ⟨pos, comm, colon, ss, rfl⟩ := hsome
      have hcomm : sizeOf comm < sizeOf (Stmt.commClause pos (some comm) colon ss) := by
        rw [Stmt.commClause.sizeOf_spec, Option.some.sizeOf_spec]
        omega
      rw [comms, defaultComm.eq_3 _ _ _ (fun _ _ _ h => by cases h), weightAll, Task.weight]
      omega
    by_cases hnone : ∃ pos colon ss, c = .commClause pos none colon ss
    · obtain ⟨pos, colon, ss, rfl⟩ := hnone
      have h := weightAll_clause label ss []
      have hss : sizeOf ss < sizeOf (Stmt.commClause pos none colon ss) := by
        rw [Stmt.commClause.sizeOf_spec]
        omega
      rw [defaultComm, comms.eq_3 _ _ (fun _ _ _ _ h => by cases h)]
      omega
    rw [comms.eq_3 _ _ fun _ _ _ _ h => hsome ⟨_, _, _, _, h⟩,
      defaultComm.eq_3 _ _ _ fun _ _ _ h => hnone ⟨_, _, _, h⟩]
    omega

/-! ### Statements -/

theorem weightAll_expand (label : Option String) {s : Stmt} (hs : isJump s = false) :
    weightAll (expand label s) < sizeOf s := by
  cases s with
  | decl d =>
    show weightAll (emits (varKeys d)) < 1 + sizeOf d
    rw [weightAll_emits]
    omega
  | branch => cases hs
  | block b =>
    obtain ⟨lbrace, ss, rbrace⟩ := b
    have h := weightAll_run ss
    simp [expand]
    omega
  | ite pos init c b otherwise =>
    obtain ⟨lbrace, ss, rbrace⟩ := b
    have hinit := weightAll_runOption init
    simp [expand, weightAll_append, weightAll, Task.weight]
    omega
  | switch pos init tag b =>
    obtain ⟨lbrace, ss, rbrace⟩ := b
    have hinit := weightAll_runOption init
    have hcases := weightAll_cases label (defaultCase label ss) ss
    have hdefault := weightAll_defaultCase label ss
    simp [expand, switchTask, weightAll_append, weightAll_emits, weightAll, Task.weight]
    omega
  | typeSwitch pos init assign b =>
    obtain ⟨lbrace, ss, rbrace⟩ := b
    have hinit := weightAll_runOption init
    have htypes := weightAll_types label (defaultType label ss) ss
    have hdefault := weightAll_defaultType label ss
    simp [expand, typeTask, weightAll_append, weightAll, Task.weight]
    omega
  | select pos b =>
    obtain ⟨lbrace, ss, rbrace⟩ := b
    have hproceeds := weightAll_proceeds label (defaultComm label ss) ss
    have hcomms := weightAll_comms label ss
    simp [expand, selectTask, weightAll_append, weightAll, Task.weight]
    omega
  | forLoop pos init c post b =>
    obtain ⟨lbrace, ss, rbrace⟩ := b
    have hinit := weightAll_runOption init
    cases c <;> simp [expand, weightAll_append, weightAll, Task.weight, Guard.ofCond] <;> omega
  | range pos key value opPos op rangePos x b =>
    obtain ⟨lbrace, ss, rbrace⟩ := b
    simp [expand, weightAll_append, weightAll_emits, weightAll, Task.weight]
    omega
  | labeled x colon s =>
    show sizeOf s + 0 < _
    rw [Stmt.labeled.sizeOf_spec]
    omega
  | _ => exact sizeOf_stmt_pos _

/-- Before a walk goes on, a run does some steps that emit nothing: it emits the node at the place, or
goes on in each block that follows. -/
inductive Settles (g : Chart) (body : List Stmt) (σ : List Task) (p : Place) : Prop where
  | emit {k : Key} {q : Place} {σ' : List Task} {E : Env} : Holds g.blocks p k q →
    (∀ ks, Emits body σ' ks → Emits body σ (k :: ks)) → Follows g E σ' q → Settles g body σ p
  | ends {ns : List Nat} : Ends g.blocks p ns →
    (∀ b ∈ ns, ∃ σ' E, (∀ ks, Emits body σ' ks → Emits body σ ks) ∧ Follows g E σ' (.start b)) →
      Settles g body σ p

namespace Settles

/-- A step that emits nothing comes before. -/
theorem of_step (hs : Step body σ none σ') (h : Settles g body σ' p) : Settles g body σ p := by
  have hlead {ks} (h : Emits body σ' ks) : Emits body σ ks := .step hs h
  cases h with
  | emit hk hks hf => exact .emit hk (fun ks h => hlead (hks ks h)) hf
  | ends hends hns =>
    refine .ends hends fun b hb => ?_
    obtain ⟨τ, E, hks, hf⟩ := hns b hb
    exact ⟨τ, E, fun ks h => hlead (hks ks h), hf⟩

/-- A step that emits nothing goes on in the one block that follows. -/
theorem of_jump {b : Nat} (hends : Ends g.blocks p [b])
    (hs : Step body σ none σ') (hf : Follows g E σ' (.start b)) : Settles g body σ p := by
  refine .ends hends fun b' hb => ?_
  obtain rfl := List.mem_singleton.mp hb
  exact ⟨σ', E, fun ks h => .step hs h, hf⟩

end Settles

theorem Follows.settles (hg : IsChart g body) (h : Follows g E σ p) : Settles g body σ p := by
  obtain ⟨n, hn⟩ : ∃ n, weightAll σ < n := ⟨_, Nat.lt_succ_self _⟩
  induction n generalizing E σ p with
  | zero => omega
  | succ n ih =>
    cases h with
    | nil hends => exact .ends hends nofun
    | jump hends hσ =>
      refine .ends hends fun b hb => ?_
      obtain rfl := List.mem_singleton.mp hb
      exact ⟨σ, E, fun _ => id, hσ⟩
    | emit hk hσ => exact .emit hk (fun ks h => .step .emit h) hσ
    | fork hends hyes hno hσ =>
      refine .ends hends fun b hb => ?_
      rcases List.mem_pair.mp hb with rfl | rfl
      · exact ⟨_, _, fun ks h => .step .yes h, hyes⟩
      · exact ⟨_, _, fun ks h => .step .no h, hno⟩
    | @cond E E₁ E₂ x yes no σ p q b c hx hyes hno hσ =>
      refine .of_step .cond (ih (.split hx hyes hno hσ) ?_)
      have hsplit := weightAll_split yes no x
      rw [weightAll, Task.weight] at hn
      rw [weightAll_append]
      omega
    | @stmt E label s σ p q hs hσ =>
      rw [weightAll, Task.weight] at hn
      cases hj : isJump s with
      | false =>
        refine .of_step (.stmt hj) (ih (expand hs hj hσ) ?_)
        have hexpand := weightAll_expand label hj
        rw [weightAll_append]
        omega
      | true =>
        cases s with
        | branch pos word name =>
          rw [Laid] at hs
          obtain ⟨t, ht, hends⟩ := hs
          obtain ⟨σ', hσ', E', hf⟩ := hσ.jumpTo hg ht
          exact .of_jump hends (.jump hσ') hf
        | _ => cases hj
    | @clauses E E' ts σ p q hts hσ =>
      refine .of_step .clauses (ih hts ?_)
      rw [weightAll, Task.weight] at hn
      rw [weightAll_append]
      omega
    | @loop E label o σ again cont done hloop hσ =>
      obtain ⟨E', hf⟩ := enter hloop hσ
      refine .of_step .loop (ih hf ?_)
      have henter := weightAll_enter label o
      rw [weightAll] at hn
      rw [weightAll_append]
      omega
    | turn hends hloop hσ => exact .of_jump hends .turn (next hloop hσ)
    | leave hends _ hσ => exact .of_jump hends .leave hσ
    | halt hends => exact .ends hends nofun

theorem Walk.emits (hg : IsChart g body) (h : Walk g.blocks p ks) (hf : Follows g E σ p) :
    Emits body σ ks := by
  induction h generalizing E σ with
  | stop => exact .stop
  | emit hk _ ih =>
    cases hf.settles hg with
    | emit hk' hks hf' =>
      obtain ⟨rfl, rfl⟩ := hk.unique hk'
      exact hks _ (ih hf')
    | ends hends => exact absurd hends hk.not_ends
  | jump hends hb _ ih =>
    cases hf.settles hg with
    | emit hk => exact absurd hends hk.not_ends
    | ends hends' hns =>
      obtain rfl := hends.successors.symm.trans hends'.successors
      obtain ⟨σ', E', hks, hf'⟩ := hns _ hb
      exact hks _ (ih hf')

/-! ## Bodies -/

/-- The keys that a well-formed body emits up to some step are what begins the nodes along a path of its
blocks from block 0. -/
theorem blocksOf_simulates (body : Go.Block) (h : WellFormed body) (ks : List Key) :
    Emits body.stmts (run body.stmts) ks ↔
      ∃ path, IsPath (blocksOf body) path ∧ ks <+: keysAlong (blocksOf body) path := by
  have hg := isChart_chartOf h
  obtain ⟨q, hlaid, hends⟩ := hg.laid
  have hf := Follows.run hlaid (.nil hends)
  rw [List.append_nil] at hf
  rw [← walk_iff]
  exact ⟨fun he => he.walk hg hf, fun hw => hw.emits hg hf⟩

/-- A variable of one character. -/
def variableAt (pos : Pos) (name : String) : Expr := .ident ⟨pos, name, none⟩

/-- The body `{ L: for a && b { switch c { case d: fallthrough; default: continue L; case e: break L } } }`. -/
def loopingBody : Go.Block :=
  let jump (pos : Pos) (word : Lexeme) : Stmt := .branch pos word (some ⟨pos + 9, "L", none⟩)
  let clauses : List Stmt := [
    .caseClause 30 [variableAt 35 "d"] 36 [.branch 38 .fallthroughWord none],
    .caseClause 51 [] 58 [jump 60 .continueWord],
    .caseClause 72 [variableAt 77 "e"] 78 [jump 80 .breakWord]]
  ⟨1, [.labeled ⟨3, "L", none⟩ 4 (.forLoop 6 none
    (some (.binary (variableAt 10 "a") 12 .logicalAnd (variableAt 15 "b"))) none
    ⟨17, [.switch 19 none (some (variableAt 26 "c")) ⟨28, clauses, 88⟩], 90⟩)], 92⟩

/-- The body falls into its default clause and starts another round. -/
theorem blocksOf_simulates_loopingBody :
    WellFormed loopingBody ∧ Emits loopingBody.stmts (run loopingBody.stmts)
      ([variableAt 10 "a", variableAt 15 "b", variableAt 26 "c", variableAt 35 "d",
        variableAt 10 "a"].map Expr.key) := by
  have hw : WellFormed loopingBody := by decide
  refine ⟨hw, (blocksOf_simulates loopingBody hw _).mpr ⟨[0, 1, 4, 5, 2, 7, 8, 4], ⟨rfl, ?_⟩, ?_⟩⟩
  · decide +kernel
  · decide +kernel

end LosslessGo.Flow
