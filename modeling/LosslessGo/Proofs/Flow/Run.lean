import LosslessGo.Proofs.Flow.WellFormed

/-!
# How a body runs

The statements of a body are carried out one after the other by a machine that holds what is left to do
as a list of tasks. A step emits the key of a syntax node that is evaluated, or nothing.

* `Task.expand` is what a statement amounts to: its keys, its condition, its clauses and its loop, in the
  order of evaluation.
* `breakTo`, `continueTo` and `fallInto` find the end of the clause or the round that is left, `locate`
  the labelled statement that a `goto` leads to.
* `Emits` says which keys some steps emit.

What conditions evaluate to, which clause matches and which communication proceeds is left open: a
`fork` goes on either way.
-/

namespace LosslessGo.Flow

open Go

/-- What decides on one more round of a loop. -/
inductive Guard where
  | always
  | test (c : Expr)
  /-- Another element of what is ranged over. -/
  | each

/-- The parts of a loop that are carried out every round. -/
structure Loop where
  guard : Guard
  post : Option Stmt
  body : List Stmt

/-- The guard of a `for` statement. -/
def Guard.ofCond : Option Expr → Guard
  | none => .always
  | some c => .test c

/-- What is left to do. -/
inductive Task where
  | emit (k : Key)
  /-- Either of two ways. -/
  | fork (yes no : List Task)
  /-- A condition, and what follows where it is true and where it is false. -/
  | cond (c : Expr) (yes no : List Task)
  | stmt (label : Option String) (s : Stmt)
  /-- What the clauses of a `switch` or a `select` amount to. -/
  | clauses (tasks : List Task)
  | loop (label : Option String) (o : Loop)
  /-- The end of a round. -/
  | turn (label : Option String) (o : Loop)
  /-- The end of a clause, and the clauses behind it that may be fallen into. -/
  | leave (label : Option String) (following : List Stmt)
  | halt

/-- Statements in order. -/
def run (ss : List Stmt) : List Task := ss.map (.stmt none)

/-- An optional statement. -/
def runOption (s : Option Stmt) : List Task := run s.toList

/-- The keys of syntax nodes that are evaluated in order. -/
def emits (ks : List Key) : List Task := ks.map .emit

namespace Loop

variable (label : Option String) (o : Loop)

/-- One round. -/
def round : List Task := run o.body ++ [.turn label o]

/-- What the head of a loop amounts to. -/
def enter : List Task :=
  match o.guard with
  | .always => o.round label
  | .test c => [.cond c (o.round label) []]
  | .each => [.fork (o.round label) []]

/-- What follows a round. -/
def next : List Task := runOption o.post ++ [.loop label o]

end Loop

/-! ## Clauses -/

/-- The statements of a clause. -/
def clause (label : Option String) (ss following : List Stmt) : List Task :=
  run ss ++ [.leave label following]

/-- The default clause of a switch. -/
def defaultCase (label : Option String) : List Stmt → List Task
  | [] => []
  | .caseClause _ [] _ ss :: rest => clause label ss rest
  | _ :: rest => defaultCase label rest

/-- Expressions compared with in turn. -/
def compares (enter next : List Task) : List Expr → List Task
  | [] => next
  | x :: xs => [.emit x.key, .fork enter (compares enter next xs)]

/-- The clauses of a switch in turn, the default clause last. -/
def cases (label : Option String) (otherwise : List Task) : List Stmt → List Task
  | [] => otherwise
  | .caseClause _ exprs _ ss :: rest =>
    compares (clause label ss rest) (cases label otherwise rest) exprs
  | _ :: rest => cases label otherwise rest

/-- The default clause of a type switch. -/
def defaultType (label : Option String) : List Stmt → List Task
  | [] => []
  | .caseClause _ [] _ ss :: _ => clause label ss []
  | _ :: rest => defaultType label rest

/-- Types compared with in turn. They are not evaluated. -/
def compareAll (enter next : List Task) : List Expr → List Task
  | [] => next
  | _ :: xs => [.fork enter (compareAll enter next xs)]

/-- The clauses of a type switch in turn, the default clause last. -/
def types (label : Option String) (otherwise : List Task) : List Stmt → List Task
  | [] => otherwise
  | .caseClause _ exprs _ ss :: rest =>
    compareAll (clause label ss []) (types label otherwise rest) exprs
  | _ :: rest => types label otherwise rest

/-- The communications of a select. -/
def comms : List Stmt → List Task
  | [] => []
  | .commClause _ (some comm) _ _ :: rest => .stmt none comm :: comms rest
  | _ :: rest => comms rest

/-- The default clause of a select. Without one the select may wait forever. -/
def defaultComm (label : Option String) : List Stmt → List Task
  | [] => [.halt]
  | .commClause _ none _ ss :: _ => clause label ss []
  | _ :: rest => defaultComm label rest

/-- The first expression that a communication assigns to. -/
def assignedKeys (comm : Stmt) : List Key := ((firstAssigned? comm).map (·.key)).toList

/-- The clauses of a select, one of which proceeds, the default clause last. -/
def proceeds (label : Option String) (otherwise : List Task) : List Stmt → List Task
  | [] => otherwise
  | .commClause _ (some comm) _ ss :: rest =>
    [.fork (emits (assignedKeys comm) ++ clause label ss []) (proceeds label otherwise rest)]
  | _ :: rest => proceeds label otherwise rest

/-! ## Statements -/

/-- The keys of the values of a `var` declaration. -/
def varKeys (d : GenDecl) : List Key :=
  if d.keyword = .varWord then (d.specs.filter (·.kind = .valueSpec)).map (·.key) else []

/-- The first operand of a condition, and what its values lead to. -/
def split (yes no : List Task) : Expr → List Task
  | .binary x _ .logicalAnd y => [.cond x [.cond y yes no] no]
  | .binary x _ .logicalOr y => [.cond x yes [.cond y yes no]]
  | .unary _ .not x => [.cond x no yes]
  | .paren _ x _ => [.cond x yes no]
  | x => [.emit x.key, .fork yes no]

/-- The keys of the expressions that a `range` statement evaluates before its first round. -/
def rangeKeys (key value : Option Expr) (x : Expr) : List Key :=
  x.key :: ((key.map (·.key)).toList ++ (value.map (·.key)).toList)

/-- The clauses of a switch. -/
def switchTask (label : Option String) (cs : List Stmt) : Task :=
  .clauses (cases label (defaultCase label cs) cs)

/-- The clauses of a type switch. -/
def typeTask (label : Option String) (cs : List Stmt) : Task :=
  .clauses (types label (defaultType label cs) cs)

/-- The clauses of a select. -/
def selectTask (label : Option String) (cs : List Stmt) : Task :=
  .clauses (proceeds label (defaultComm label cs) cs)

/-- What a statement amounts to. Jumps are left out. -/
def expand (label : Option String) : Stmt → List Task
  | .decl d => emits (varKeys d)
  | .labeled x _ s => [.stmt (some x.name) s]
  | .ret pos results => [.emit (Stmt.ret pos results).key, .halt]
  | .branch .. => []
  | .block ⟨_, ss, _⟩ => run ss
  | .ite _ init c ⟨_, ss, _⟩ otherwise =>
    runOption init ++ [.cond c (run ss) (runOption otherwise)]
  | .caseClause .. | .commClause .. => []
  | .switch _ init tag ⟨_, cs, _⟩ =>
    runOption init ++ (emits (tag.map (·.key)).toList ++ [switchTask label cs])
  | .typeSwitch _ init assign ⟨_, cs, _⟩ =>
    runOption init ++ [.stmt none assign, typeTask label cs]
  | .select _ ⟨_, cs, _⟩ => comms cs ++ [selectTask label cs]
  | .forLoop _ init c post ⟨_, ss, _⟩ => runOption init ++ [.loop label ⟨.ofCond c, post, ss⟩]
  | .range _ key value _ _ _ x ⟨_, ss, _⟩ =>
    emits (rangeKeys key value x) ++ [.loop label ⟨.each, none, ss⟩]
  | s => [.emit s.key]

/-! ## Jumps -/

/-- Whether a jump that may name a label leads out of a statement that may carry one. -/
def aims (name label : Option String) : Bool := name.isNone || name == label

/-- What is left to do behind the loop or clause that a `break` leaves. -/
def breakTo (name : Option String) : List Task → Option (List Task)
  | [] => none
  | .turn label _ :: σ | .leave label _ :: σ =>
    if aims name label then some σ else breakTo name σ
  | _ :: σ => breakTo name σ

/-- What is left to do from the next round on that a `continue` leads to. -/
def continueTo (name : Option String) : List Task → Option (List Task)
  | [] => none
  | .turn label o :: σ => if aims name label then some (o.next label ++ σ) else continueTo name σ
  | _ :: σ => continueTo name σ

/-- What is left to do from the clause on that a `fallthrough` leads to. -/
def fallInto : List Task → Option (List Task)
  | [] => none
  | .turn .. :: _ => none
  | .leave label (.caseClause _ _ _ ss :: rest) :: σ => some (clause label ss rest ++ σ)
  | .leave .. :: _ => none
  | _ :: σ => fallInto σ

mutual

/-- What is left to do from a labelled statement on, where it is in `s` and `σ` is left to do behind
`s`. -/
def locate (name : String) (label : Option String) : Stmt → List Task → Option (List Task)
  | .labeled x _ s, σ =>
    if x.name = name then some (.stmt (some x.name) s :: σ) else locate name (some x.name) s σ
  | .block ⟨_, ss, _⟩, σ => locateAll name ss σ
  | .ite _ init c ⟨_, ss, _⟩ otherwise, σ =>
    (locateOption name init (.cond c (run ss) (runOption otherwise) :: σ)).or
      ((locateAll name ss σ).or (locateOption name otherwise σ))
  | .switch _ init tag ⟨_, cs, _⟩, σ =>
    (locateOption name init (emits (tag.map (·.key)).toList ++ switchTask label cs :: σ)).or
      (locateCases name label true cs σ)
  | .typeSwitch _ init assign ⟨_, cs, _⟩, σ =>
    (locateOption name init (.stmt none assign :: typeTask label cs :: σ)).or
      ((locate name none assign (typeTask label cs :: σ)).or (locateCases name label false cs σ))
  | .select _ ⟨_, cs, _⟩, σ => locateComms name label cs σ
  | .forLoop _ init c post ⟨_, ss, _⟩, σ =>
    (locateOption name init (.loop label ⟨.ofCond c, post, ss⟩ :: σ)).or
      ((locateAll name ss (.turn label ⟨.ofCond c, post, ss⟩ :: σ)).or
        (locateOption name post (.loop label ⟨.ofCond c, post, ss⟩ :: σ)))
  | .range _ _ _ _ _ _ _ ⟨_, ss, _⟩, σ => locateAll name ss (.turn label ⟨.each, none, ss⟩ :: σ)
  | _, _ => none

/-- What is left to do from a labelled statement on, in an optional statement. -/
def locateOption (name : String) : Option Stmt → List Task → Option (List Task)
  | none, _ => none
  | some s, σ => locate name none s σ

/-- What is left to do from a labelled statement on, in statements in order. -/
def locateAll (name : String) : List Stmt → List Task → Option (List Task)
  | [], _ => none
  | s :: ss, σ => (locate name none s (run ss ++ σ)).or (locateAll name ss σ)

/-- What is left to do from a labelled statement on, in the clauses of a switch. -/
def locateCases (name : String) (label : Option String) (fall : Bool) :
    List Stmt → List Task → Option (List Task)
  | [], _ => none
  | .caseClause _ _ _ ss :: rest, σ =>
    (locateAll name ss (.leave label (if fall then rest else []) :: σ)).or
      (locateCases name label fall rest σ)
  | _ :: rest, σ => locateCases name label fall rest σ

/-- What is left to do from a labelled statement on, in the clauses of a select. -/
def locateComms (name : String) (label : Option String) :
    List Stmt → List Task → Option (List Task)
  | [], _ => none
  | .commClause _ _ _ ss :: rest, σ =>
    (locateAll name ss (.leave label [] :: σ)).or (locateComms name label rest σ)
  | _ :: rest, σ => locateComms name label rest σ

end

/-- What is left to do behind a jump. -/
def jumpTo (body : List Stmt) (word : Lexeme) (name : Option String) (σ : List Task) :
    Option (List Task) :=
  match word, name with
  | .breakWord, name => breakTo name σ
  | .continueWord, name => continueTo name σ
  | .fallthroughWord, _ => fallInto σ
  | .gotoWord, some x => locateAll x body []
  | _, _ => none

/-! ## Steps -/

/-- Whether a statement is a jump. -/
def isJump : Stmt → Bool
  | .branch .. => true
  | _ => false

/-- One step, which emits a key or nothing. Nothing follows `halt`. -/
inductive Step (body : List Stmt) : List Task → Option Key → List Task → Prop where
  | emit {k σ} : Step body (.emit k :: σ) (some k) σ
  | yes {yes no σ} : Step body (.fork yes no :: σ) none (yes ++ σ)
  | no {yes no σ} : Step body (.fork yes no :: σ) none (no ++ σ)
  | cond {c yes no σ} : Step body (.cond c yes no :: σ) none (split yes no c ++ σ)
  | stmt {label s σ} : isJump s = false → Step body (.stmt label s :: σ) none (expand label s ++ σ)
  | jump {label pos word name σ σ'} : jumpTo body word (name.map Ident.name) σ = some σ' →
    Step body (.stmt label (.branch pos word name) :: σ) none σ'
  | clauses {ts σ} : Step body (.clauses ts :: σ) none (ts ++ σ)
  | loop {label o σ} : Step body (.loop label o :: σ) none (o.enter label ++ σ)
  | turn {label o σ} : Step body (.turn label o :: σ) none (o.next label ++ σ)
  | leave {label following σ} : Step body (.leave label following :: σ) none σ

/-- Some steps emit the keys `ks`. -/
inductive Emits (body : List Stmt) : List Task → List Key → Prop where
  | stop {σ} : Emits body σ []
  | step {σ k σ' ks} : Step body σ k σ' → Emits body σ' ks → Emits body σ (k.toList ++ ks)

end LosslessGo.Flow
