import LosslessGo.Proofs.Flow.Run
import LosslessGo.Proofs.Flow.Walk

/-!
# Where statements stand in blocks

`Laid g E label s p q` says that the blocks of `g` hold statement `s` from place `p` to place `q`, where
`E` says which blocks the jumps in `s` lead to. It follows the statement part by part, as the functions
beside it follow lists of statements, the clauses of switches and selects, and conditions.

Nothing is said here of how the blocks were made.
-/

namespace LosslessGo.Flow

open Go

/-- The blocks of a body, the labels that it declares and the block of each label. -/
structure Chart where
  blocks : List Block
  labels : List String
  goto : String → Option Nat

/-- The blocks that jumps lead to, by label where they name one. -/
structure Env where
  brk : Option Nat
  cont : Option Nat
  next : Option Nat
  brks : List (String × Nat)
  conts : List (String × Nat)

namespace Env

/-- Outside of any loop and clause. -/
def none : Env := ⟨.none, .none, .none, [], []⟩

/-- Inside a loop that may carry a label. -/
def inLoop (E : Env) (label : Option String) (done again : Nat) : Env :=
  ⟨some done, some again, .none, label.toList.map (·, done) ++ E.brks,
    label.toList.map (·, again) ++ E.conts⟩

/-- Inside a clause of a statement that may carry a label, with the body that it may fall into. -/
def inClause (E : Env) (label : Option String) (done : Nat) (next : Option Nat) : Env :=
  ⟨some done, E.cont, next, label.toList.map (·, done) ++ E.brks, E.conts⟩

/-- The block of a label among those of labels, where a statement may carry one more. -/
theorem lookup_labelled {label : Option String} {es : List (String × Nat)} {x : String} {b : Nat} :
    (label.toList.map (·, b) ++ es).lookup x = if label = some x then some b else es.lookup x := by
  cases label with
  | none => rfl
  | some y =>
    show ((y, b) :: es).lookup x = _
    by_cases h : x = y
    · rw [h, List.lookup_cons_self, if_pos rfl]
    · rw [List.lookup_cons, beq_false_of_ne h, if_neg fun h' => h (Option.some.inj h').symm]

/-- Where a `break` leads. -/
def brkOf (E : Env) (name : Option String) : Option Nat :=
  match name with
  | .none => E.brk
  | some x => E.brks.lookup x

/-- Where a `continue` leads. -/
def contOf (E : Env) (name : Option String) : Option Nat :=
  match name with
  | .none => E.cont
  | some x => E.conts.lookup x

/-- Where a jump leads. -/
def target (E : Env) (g : Chart) (word : Lexeme) (name : Option String) : Option Nat :=
  match word, name with
  | .breakWord, name => E.brkOf name
  | .continueWord, name => E.contOf name
  | .fallthroughWord, .none => E.next
  | .gotoWord, some x => if x ∈ g.labels then g.goto x else .none
  | _, _ => .none

end Env

/-! ## Expressions -/

/-- Nodes are evaluated in order from place `p` to place `q`. -/
def HoldAll (bs : List Block) : List Key → Place → Place → Prop
  | [], p, q => q = p
  | k :: ks, p, q => ∃ r, Holds bs p k r ∧ HoldAll bs ks r q

/-- A condition from place `p` on leads to block `yes` or block `no`. -/
def CondLaid (bs : List Block) : Expr → Place → Nat → Nat → Prop
  | .binary x _ .logicalAnd y, p, yes, no =>
    ∃ m, CondLaid bs x p m no ∧ CondLaid bs y (.start m) yes no
  | .binary x _ .logicalOr y, p, yes, no =>
    ∃ m, CondLaid bs x p yes m ∧ CondLaid bs y (.start m) yes no
  | .unary _ .not x, p, yes, no => CondLaid bs x p no yes
  | .paren _ x _, p, yes, no => CondLaid bs x p yes no
  | x, p, yes, no => ∃ r, Holds bs p x.key r ∧ Ends bs r [yes, no]

/-- The head of a loop in block `again` leads to block `body` or block `done`. -/
def GuardLaid (bs : List Block) (again body done : Nat) : Guard → Prop
  | .always => body = again
  | .test c => CondLaid bs c (.start again) body done
  | .each => Ends bs (.start again) [body, done]

/-- Expressions compared with from place `p` to place `q`, each match leading to `body`. -/
def ComparesLaid (bs : List Block) (body : Nat) : List Expr → Place → Place → Prop
  | [], p, q => q = p
  | x :: xs, p, q =>
    ∃ r n, Holds bs p x.key r ∧ Ends bs r [body, n] ∧ ComparesLaid bs body xs (.start n) q

/-- Types compared with from place `p` to place `q`, each match leading to `body`. -/
def CompareAllLaid (bs : List Block) (body : Nat) : List Expr → Place → Place → Prop
  | [], p, q => q = p
  | _ :: xs, p, q => ∃ n, Ends bs p [body, n] ∧ CompareAllLaid bs body xs (.start n) q

/-- The expressions of the clauses of a switch from place `p` to place `q`, the clauses having the
blocks `bodies`. -/
def CasesLaid (bs : List Block) : List Stmt → List Nat → Place → Place → Prop
  | [], _, p, q => q = p
  | .caseClause _ exprs _ _ :: cs, body :: bodies, p, q =>
    ∃ r, ComparesLaid bs body exprs p r ∧ CasesLaid bs cs bodies r q
  | _, _, _, _ => False

/-- The block of the default clause, if there is one, and that of the clause behind it. -/
def defaultEntry (done : Nat) : List Stmt → List Nat → Option (Nat × Nat)
  | .caseClause _ exprs _ _ :: cs, body :: bodies =>
    if exprs.isEmpty then some (body, bodies.head?.getD done) else defaultEntry done cs bodies
  | _, _ => none

/-- The block of the default clause, or `done` where there is none. -/
def defaultBody (done : Nat) (cs : List Stmt) (bodies : List Nat) : Nat :=
  (defaultEntry done cs bodies).elim done (·.1)

/-! ## Statements -/

mutual

/-- Statement `s`, which may carry a label, stands from place `p` to place `q`. -/
def Laid (g : Chart) (E : Env) (label : Option String) (s : Stmt) (p q : Place) : Prop :=
  match s with
  | .bad .. | .send .. | .incDec .. | .go .. | .defer .. | .empty .. | .assign .. | .expr _ =>
    Holds g.blocks p s.key q
  | .decl d => HoldAll g.blocks (varKeys d) p q
  | .labeled x _ inner =>
    ∃ t, g.goto x.name = some t ∧ Ends g.blocks p [t] ∧ Laid g E (some x.name) inner (.start t) q
  | .ret .. => ∃ r, Holds g.blocks p s.key r ∧ Ends g.blocks r []
  | .branch _ word name =>
    ∃ t, E.target g word (name.map (·.name)) = some t ∧ Ends g.blocks p [t]
  | .block ⟨_, ss, _⟩ => LaidAll g E ss p q
  | .ite _ init c ⟨_, ss, _⟩ otherwise =>
    ∃ r yes no done, LaidOption g E init p r ∧ CondLaid g.blocks c r yes no ∧
      (∃ m, LaidAll g E ss (.start yes) m ∧ Ends g.blocks m [done]) ∧
      LaidVia g E otherwise no done ∧ q = .start done
  | .switch _ init tag ⟨_, cs, _⟩ =>
    ∃ r m n bodies done, LaidOption g E init p r ∧
      HoldAll g.blocks (tag.map (·.key)).toList r m ∧ CasesLaid g.blocks cs bodies m n ∧
      Ends g.blocks n [defaultBody done cs bodies] ∧ BodiesLaid g E label done cs bodies ∧
      q = .start done
  | .typeSwitch _ init assign ⟨_, cs, _⟩ =>
    ∃ r m n done, LaidOption g E init p r ∧ Laid g E none assign r m ∧
      TypesLaid g E label done cs m n ∧ DefaultTypeLaid g E label done cs n ∧ q = .start done
  | .select _ ⟨_, cs, _⟩ =>
    ∃ m n done, CommsLaid g E cs p m ∧ ProceedsLaid g E label done cs m n ∧
      DefaultCommLaid g E label done cs n ∧ q = .start done
  | .forLoop _ init c post ⟨_, ss, _⟩ =>
    ∃ r again body cont done, LaidOption g E init p r ∧ Ends g.blocks r [again] ∧
      GuardLaid g.blocks again body done (.ofCond c) ∧
      (∃ m, LaidAll g (E.inLoop label done cont) ss (.start body) m ∧ Ends g.blocks m [cont]) ∧
      LaidVia g E post cont again ∧ q = .start done
  | .range _ key value _ _ _ x ⟨_, ss, _⟩ =>
    ∃ r again body done, HoldAll g.blocks (rangeKeys key value x) p r ∧ Ends g.blocks r [again] ∧
      GuardLaid g.blocks again body done .each ∧
      (∃ m, LaidAll g (E.inLoop label done again) ss (.start body) m ∧ Ends g.blocks m [again]) ∧
      q = .start done
  | .caseClause .. | .commClause .. => False

/-- An optional statement from place `p` to place `q`. -/
def LaidOption (g : Chart) (E : Env) (s : Option Stmt) (p q : Place) : Prop :=
  match s with
  | none => q = p
  | some s => Laid g E none s p q

/-- An optional statement in block `b`, which leads to block `done`. -/
def LaidVia (g : Chart) (E : Env) (s : Option Stmt) (b done : Nat) : Prop :=
  match s with
  | none => b = done
  | some s => ∃ m, Laid g E none s (.start b) m ∧ Ends g.blocks m [done]

/-- Statements in order from place `p` to place `q`. -/
def LaidAll (g : Chart) (E : Env) (ss : List Stmt) (p q : Place) : Prop :=
  match ss with
  | [] => q = p
  | s :: ss => ∃ r, Laid g E none s p r ∧ LaidAll g E ss r q

/-- The statements of the clauses of a switch stand in the blocks `bodies`. -/
def BodiesLaid (g : Chart) (E : Env) (label : Option String) (done : Nat) (cs : List Stmt)
    (bodies : List Nat) : Prop :=
  match cs, bodies with
  | [], [] => True
  | .caseClause _ _ _ ss :: cs, body :: bodies =>
    (∃ m, LaidAll g (E.inClause label done bodies.head?) ss (.start body) m ∧
      Ends g.blocks m [done]) ∧ BodiesLaid g E label done cs bodies
  | _, _ => False

/-- The clauses of a type switch, the default apart, from place `p` to place `q`. -/
def TypesLaid (g : Chart) (E : Env) (label : Option String) (done : Nat) (cs : List Stmt)
    (p q : Place) : Prop :=
  match cs with
  | [] => q = p
  | .caseClause _ types _ ss :: cs =>
    if types.isEmpty then TypesLaid g E label done cs p q
    else
      ∃ body r, CompareAllLaid g.blocks body types p r ∧
        (∃ m, LaidAll g (E.inClause label done none) ss (.start body) m ∧
          Ends g.blocks m [done]) ∧ TypesLaid g E label done cs r q
  | _ :: _ => False

/-- The default clause of a type switch from place `p` on. -/
def DefaultTypeLaid (g : Chart) (E : Env) (label : Option String) (done : Nat) (cs : List Stmt)
    (p : Place) : Prop :=
  match cs with
  | [] => Ends g.blocks p [done]
  | .caseClause _ types _ ss :: cs =>
    if types.isEmpty then
      ∃ m, LaidAll g (E.inClause label done none) ss p m ∧ Ends g.blocks m [done]
    else DefaultTypeLaid g E label done cs p
  | _ :: cs => DefaultTypeLaid g E label done cs p

/-- The communications of a select from place `p` to place `q`. -/
def CommsLaid (g : Chart) (E : Env) (cs : List Stmt) (p q : Place) : Prop :=
  match cs with
  | [] => q = p
  | .commClause _ (some comm) _ _ :: cs => ∃ r, Laid g E none comm p r ∧ CommsLaid g E cs r q
  | _ :: cs => CommsLaid g E cs p q

/-- The clauses of a select, the default apart, from place `p` to place `q`. -/
def ProceedsLaid (g : Chart) (E : Env) (label : Option String) (done : Nat) (cs : List Stmt)
    (p q : Place) : Prop :=
  match cs with
  | [] => q = p
  | .commClause _ (some comm) _ ss :: cs =>
    ∃ body n r, Ends g.blocks p [body, n] ∧ HoldAll g.blocks (assignedKeys comm) (.start body) r ∧
      (∃ m, LaidAll g (E.inClause label done none) ss r m ∧ Ends g.blocks m [done]) ∧
      ProceedsLaid g E label done cs (.start n) q
  | _ :: cs => ProceedsLaid g E label done cs p q

/-- The default clause of a select from place `p` on. -/
def DefaultCommLaid (g : Chart) (E : Env) (label : Option String) (done : Nat) (cs : List Stmt)
    (p : Place) : Prop :=
  match cs with
  | [] => Ends g.blocks p []
  | .commClause _ none _ ss :: _ =>
    ∃ m, LaidAll g (E.inClause label done none) ss p m ∧ Ends g.blocks m [done]
  | _ :: cs => DefaultCommLaid g E label done cs p

end

/-- A loop with its head in block `again`, its next round from block `cont` on and its end in block
`done`. -/
def LoopLaid (g : Chart) (E : Env) (label : Option String) (o : Loop) (again cont done : Nat) :
    Prop :=
  ∃ body, GuardLaid g.blocks again body done o.guard ∧
    (∃ m, LaidAll g (E.inLoop label done cont) o.body (.start body) m ∧ Ends g.blocks m [cont]) ∧
    LaidVia g E o.post cont again

end LosslessGo.Flow
