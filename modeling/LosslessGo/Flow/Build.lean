import LosslessGo.Flow.Graph
import LosslessGo.Flow.Ids
import LosslessGo.Go.Span

/-!
# Basic blocks of a function body

A body is laid out as basic blocks, numbered in the order in which they are made; block 0 is the
entry. Calls return, so only branches, `return` and the structured statements end a block.

* `blocksOf` lays out a body.
* `Graph.ofBody` gives the graph in node numbers.
* `Layout.branch` splits the operators `&&`, `||` and `!` of a condition into blocks of their own.
* `flow` and the functions beside it lay out statements.
-/

namespace LosslessGo.Flow

open Go

/-- A basic block: the syntax nodes evaluated in it, and the blocks that may follow. -/
structure Block where
  nodes : List Key
  successors : List Nat
  deriving DecidableEq, Inhabited, Repr

/-- Where jumps to a label lead: a `goto`, and a `break` or `continue` of the labelled
statement. -/
structure Label where
  goto : Nat
  brk : Option Nat
  cont : Option Nat
  deriving DecidableEq, Inhabited, Repr

/-- Where jumps without a label lead. -/
structure Jumps where
  brk : Option Nat
  cont : Option Nat
  next : Option Nat
  deriving DecidableEq, Inhabited, Repr

namespace Jumps

/-- Outside of any loop and switch. -/
def none : Jumps := ⟨.none, .none, .none⟩

/-- Inside a loop. -/
def inLoop (j : Jumps) (done again : Nat) : Jumps := { j with brk := done, cont := again }

/-- Inside a clause of a switch, with the body that `fallthrough` leads to. -/
def inCase (j : Jumps) (done next : Nat) : Jumps := { j with brk := done, next := next }

/-- Inside a clause that no `fallthrough` leaves. -/
def inClause (j : Jumps) (done : Nat) : Jumps := { j with brk := done }

end Jumps

/-- The blocks made so far, the one that statements go to, and the labels seen. The blocks that were
ended are listed with what may follow them, the last one first; nothing is laid out by this list. -/
structure Layout where
  blocks : Array Block
  current : Nat
  labels : List (String × Label)
  ended : List (Nat × List Nat)
  deriving Inhabited, Repr

namespace Layout

/-- An entry block and nothing else. -/
def start : Layout := ⟨#[⟨[], []⟩], 0, [], []⟩

/-- The number of the block that is made next. -/
def size (l : Layout) : Nat := l.blocks.size

/-- One more block. -/
def fresh (l : Layout) : Layout := { l with blocks := l.blocks.push ⟨[], []⟩ }

/-- Goes on in block `n`. -/
def goOn (l : Layout) (n : Nat) : Layout := { l with current := n }

/-- Evaluates a node in the current block. -/
def emit (l : Layout) (k : Key) : Layout :=
  { l with blocks := l.blocks.modify l.current fun b => { b with nodes := b.nodes ++ [k] } }

/-- Adds successors to the current block. -/
def follow (l : Layout) (ns : List Nat) : Layout :=
  { l with
    blocks := l.blocks.modify l.current fun b => { b with successors := b.successors ++ ns }
    ended := if ns = [] then l.ended else (l.current, ns) :: l.ended }

/-- Ends the current block with a jump. -/
def jump (l : Layout) (n : Nat) : Layout := l.follow [n]

/-- Ends the current block with a choice. -/
def fork (l : Layout) (yes no : Nat) : Layout := l.follow [yes, no]

/-- Goes on in a block of its own. -/
def goOnFresh (l : Layout) : Layout := l.fresh.goOn l.size

/-- Ends the current block with a choice by a condition. -/
def branch (l : Layout) : Expr → Nat → Nat → Layout
  | .binary x _ .logicalAnd y, yes, no =>
    ((l.fresh.branch x l.size no).goOn l.size).branch y yes no
  | .binary x _ .logicalOr y, yes, no =>
    ((l.fresh.branch x yes l.size).goOn l.size).branch y yes no
  | .unary _ .not x, yes, no => l.branch x no yes
  | .paren _ x _, yes, no => l.branch x yes no
  | x, yes, no => (l.emit x.key).fork yes no

/-- Makes sure that a label has a block. -/
def declare (l : Layout) (name : String) : Layout :=
  match l.labels.lookup name with
  | some _ => l
  | none => { l.fresh with labels := (name, ⟨l.size, none, none⟩) :: l.labels }

/-- Where jumps to a label lead, if it has a block. -/
def label? (l : Layout) (name : String) : Option Label := l.labels.lookup name

/-- Says where a labelled statement ends and, for a loop, where it goes on. -/
def bind (l : Layout) (name : Option String) (brk : Nat) (cont : Option Nat) : Layout :=
  match name with
  | none => l
  | some name =>
    match l.label? name with
    | none => l
    | some d => { l with labels := (name, ⟨d.goto, some brk, cont.or d.cont⟩) :: l.labels }

/-- Ends the current block with a jump, to a block of its own where the target is not known, and
goes on in an unreachable block. -/
def leap (l : Layout) (target : Option Nat) : Layout :=
  match target with
  | some n => (l.jump n).goOnFresh
  | none => (l.fresh.jump l.size).goOnFresh

/-- Lays out `break`, `continue`, `fallthrough` and `goto`. -/
def leave (l : Layout) (j : Jumps) (word : Lexeme) (name : Option String) : Layout :=
  match word, name with
  | .breakWord, none => l.leap j.brk
  | .continueWord, none => l.leap j.cont
  | .fallthroughWord, _ => l.leap j.next
  | .breakWord, some s => (l.declare s).leap (((l.declare s).label? s).bind (·.brk))
  | .continueWord, some s => (l.declare s).leap (((l.declare s).label? s).bind (·.cont))
  | .gotoWord, some s => (l.declare s).leap (((l.declare s).label? s).map (·.goto))
  | _, _ => l.leap none

/-- Evaluates the values of a `var` declaration. -/
def emitVars (l : Layout) (d : GenDecl) : Layout :=
  if d.keyword = .varWord then
    d.specs.foldl (fun l s => if s.kind = .valueSpec then l.emit s.key else l) l
  else l

/-- Compares with the expressions of a `case` in turn, each match leading to `body`. -/
def compare (l : Layout) (body : Nat) (exprs : List Expr) : Layout :=
  exprs.foldl (fun l x => ((l.fresh.emit x.key).fork body l.size).goOn l.size) l

/-- Compares with the types of a `case` in turn, each match leading to `body`. Types are not
evaluated. -/
def compareTypes (l : Layout) (body : Nat) (types : List Expr) : Layout :=
  types.foldl (fun l _ => (l.fresh.fork body l.size).goOn l.size) l

end Layout

/-- Whether a statement is a clause of a `switch`. -/
def isCase : Stmt → Bool
  | .caseClause .. => true
  | _ => false

/-- The first expression on the left of an assignment. -/
def firstAssigned? : Stmt → Option Expr
  | .assign (x :: _) _ _ _ => some x
  | _ => none

mutual

/-- Lays out a statement, which may carry a label. -/
def flow (j : Jumps) (label : Option String) (s : Stmt) (l : Layout) : Layout :=
  match s with
  | .bad .. | .send .. | .incDec .. | .go .. | .defer .. | .empty .. | .assign .. | .expr _ =>
    l.emit s.key
  | .decl d => l.emitVars d
  | .labeled x _ inner =>
    let l := l.declare x.name
    let target := (((l.label? x.name).map (·.goto)).getD 0)
    flow j (some x.name) inner ((l.jump target).goOn target)
  | .ret .. => (l.emit s.key).goOnFresh
  | .branch _ word name => l.leave j word (name.map (·.name))
  | .block ⟨_, stmts, _⟩ => flowAll j stmts l
  | .ite _ init cond ⟨_, stmts, _⟩ otherwise =>
    let l := flowOption j init l
    let yes := l.size
    let done := yes + 1
    match otherwise with
    | none =>
      let l := flowAll j stmts ((l.fresh.fresh.branch cond yes done).goOn yes)
      (l.jump done).goOn done
    | some other =>
      let no := done + 1
      let l := flowAll j stmts ((l.fresh.fresh.fresh.branch cond yes no).goOn yes)
      let l := flow j none other ((l.jump done).goOn no)
      (l.jump done).goOn done
  | .switch _ init tag ⟨_, clauses, _⟩ =>
    let l := flowOption j init l
    let l := match tag with
      | some x => l.emit x.key
      | none => l
    let done := l.size
    let (l, last) := flowCases j done clauses none none (l.fresh.bind label done none)
    let l := match last with
      | some (body, next) =>
        (flowDefault (j.inCase done next) clauses ((l.jump body).goOn body)).getD l
      | none => l
    (l.jump done).goOn done
  | .typeSwitch _ init assign ⟨_, clauses, _⟩ =>
    let l := flow j none assign (flowOption j init l)
    let done := l.size
    let l := flowTypeCases j done clauses (l.fresh.bind label done none)
    let l := (flowDefault (j.inClause done) clauses l).getD l
    (l.jump done).goOn done
  | .select _ ⟨_, clauses, _⟩ =>
    let l := flowComms j clauses l
    let done := l.size
    let l := flowCommCases j done clauses (l.fresh.bind label done none)
    let l := match flowCommDefault (j.inClause done) clauses l with
      | some l => l.jump done
      | none => l
    l.goOn done
  | .forLoop _ init cond post ⟨_, stmts, _⟩ =>
    let l := flowOption j init l
    let body := l.size
    let done := body + 1
    let l := l.fresh.fresh
    let again := match cond with
      | some _ => l.size
      | none => body
    let l := match cond with
      | some _ => l.fresh
      | none => l
    let cont := match post with
      | some _ => l.size
      | none => again
    let l := match post with
      | some _ => l.fresh
      | none => l
    let l := ((l.bind label done (some cont)).jump again).goOn again
    let l := match cond with
      | some x => (l.branch x body done).goOn body
      | none => l
    let l := (flowAll (j.inLoop done cont) stmts l).jump cont
    let l := match post with
      | some p => (flow j none p (l.goOn cont)).jump again
      | none => l
    l.goOn done
  | .range _ key value _ _ _ x ⟨_, stmts, _⟩ =>
    let l := l.emit x.key
    let l := match key with
      | some k => l.emit k.key
      | none => l
    let l := match value with
      | some v => l.emit v.key
      | none => l
    let again := l.size
    let body := again + 1
    let done := body + 1
    let l := ((l.fresh.jump again).goOn again).fresh.fresh
    let l := ((l.fork body done).goOn body).bind label done (some again)
    ((flowAll (j.inLoop done again) stmts l).jump again).goOn done
  | .caseClause .. | .commClause .. => l

/-- Lays out an optional statement. -/
def flowOption (j : Jumps) (s : Option Stmt) (l : Layout) : Layout :=
  match s with
  | some s => flow j none s l
  | none => l

/-- Lays out statements in order. -/
def flowAll (j : Jumps) (ss : List Stmt) (l : Layout) : Layout :=
  match ss with
  | [] => l
  | s :: ss => flowAll j ss (flow j none s l)

/-- Lays out the `case` clauses of a switch. `entry` is the block of the next clause, where one is
made already. The `default` clause gets a block and no statements; the last one's block, and that
of the clause after it, are given back. -/
def flowCases (j : Jumps) (done : Nat) (clauses : List Stmt) (entry : Option Nat)
    (last : Option (Nat × Nat)) (l : Layout) : Layout × Option (Nat × Nat) :=
  match clauses with
  | [] => (l, last)
  | .caseClause _ exprs _ stmts :: rest =>
    let body := entry.getD l.size
    let l := if entry.isSome then l else l.fresh
    let next := if rest.any isCase then l.size else done
    let l := if rest.any isCase then l.fresh else l
    if exprs.isEmpty then flowCases j done rest (some next) (some (body, next)) l
    else
      let l := l.compare body exprs
      let other := l.current
      let l := flowAll (j.inCase done next) stmts (l.goOn body)
      flowCases j done rest (some next) last ((l.jump done).goOn other)
  | _ :: rest => flowCases j done rest entry last l

/-- Lays out the statements of the last `default` clause. -/
def flowDefault (j : Jumps) (clauses : List Stmt) (l : Layout) : Option Layout :=
  match clauses with
  | [] => none
  | .caseClause _ exprs _ stmts :: rest =>
    (flowDefault j rest l).or (if exprs.isEmpty then some (flowAll j stmts l) else none)
  | _ :: rest => flowDefault j rest l

/-- Lays out the `case` clauses of a type switch. -/
def flowTypeCases (j : Jumps) (done : Nat) (clauses : List Stmt) (l : Layout) : Layout :=
  match clauses with
  | [] => l
  | .caseClause _ types _ stmts :: rest =>
    if types.isEmpty then flowTypeCases j done rest l
    else
      let body := l.size
      let l := l.fresh.compareTypes body types
      let other := l.current
      let l := flowAll (j.inClause done) stmts (l.goOn body)
      flowTypeCases j done rest ((l.jump done).goOn other)
  | _ :: rest => flowTypeCases j done rest l

/-- Lays out the communications of a select, which are all evaluated before one proceeds. -/
def flowComms (j : Jumps) (clauses : List Stmt) (l : Layout) : Layout :=
  match clauses with
  | [] => l
  | .commClause _ comm _ _ :: rest => flowComms j rest (flowOption j comm l)
  | _ :: rest => flowComms j rest l

/-- Lays out the clauses of a select, each behind a choice of its own. -/
def flowCommCases (j : Jumps) (done : Nat) (clauses : List Stmt) (l : Layout) : Layout :=
  match clauses with
  | [] => l
  | .commClause _ (some comm) _ stmts :: rest =>
    let body := l.size
    let other := body + 1
    let l := (l.fresh.fresh.fork body other).goOn body
    let l := match firstAssigned? comm with
      | some x => l.emit x.key
      | none => l
    let l := flowAll (j.inClause done) stmts l
    flowCommCases j done rest ((l.jump done).goOn other)
  | _ :: rest => flowCommCases j done rest l

/-- Lays out the statements of the last `default` clause of a select. -/
def flowCommDefault (j : Jumps) (clauses : List Stmt) (l : Layout) : Option Layout :=
  match clauses with
  | [] => none
  | .commClause _ none _ stmts :: rest =>
    (flowCommDefault j rest l).or (some (flowAll j stmts l))
  | _ :: rest => flowCommDefault j rest l

end

/-- The basic blocks of a body, entry first. -/
def blocksOf (body : Go.Block) : List Block :=
  (flowAll .none body.stmts .start).blocks.toList

/-- The graph of basic blocks in node numbers, 0 for a node that got none. -/
def Graph.ofBlocks (blocks : List Block) (scope : IdScope) : Graph :=
  ⟨blocks.map fun b =>
    ⟨b.nodes.map fun k => ((scope.get? k).getD 0 : Nat), b.successors.map fun (n : Nat) => (n : Int)⟩⟩

/-- The graph of a body. -/
def Graph.ofBody (body : Go.Block) (scope : IdScope) : Graph := .ofBlocks (blocksOf body) scope

end LosslessGo.Flow
