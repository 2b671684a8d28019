import LosslessGo.Flow.Build

/-!
# Well-formed bodies

A function body is well-formed where each label is declared once, where every `break`, `continue`,
`fallthrough` and `goto` has a target, and where clauses stand in their `switch` or `select` only, with
at most one of them the default.

* `labelsOf` lists the labels that a statement declares.
* `Scope` says which jumps have a target at a statement, `wellFormed` that all below it do.
* `WellFormed` says so of a body. It can be decided.

A `fallthrough` is the last statement of a clause that is not the last, empty statements apart. A
`goto` may lead to any label of the body.
-/

namespace LosslessGo.Flow

open Go

/-! ## Labels -/

mutual

/-- The labels that a statement declares. -/
def labelsOf : Stmt → List String
  | .labeled x _ s => x.name :: labelsOf s
  | .block ⟨_, ss, _⟩ => labelsOfAll ss
  | .ite _ init _ ⟨_, ss, _⟩ otherwise =>
    labelsOfOption init ++ (labelsOfAll ss ++ labelsOfOption otherwise)
  | .caseClause _ _ _ ss => labelsOfAll ss
  | .switch _ init _ ⟨_, cs, _⟩ => labelsOfOption init ++ labelsOfAll cs
  | .typeSwitch _ init assign ⟨_, cs, _⟩ =>
    labelsOfOption init ++ (labelsOf assign ++ labelsOfAll cs)
  | .commClause _ comm _ ss => labelsOfOption comm ++ labelsOfAll ss
  | .select _ ⟨_, cs, _⟩ => labelsOfAll cs
  | .forLoop _ init _ post ⟨_, ss, _⟩ =>
    labelsOfOption init ++ (labelsOfAll ss ++ labelsOfOption post)
  | .range _ _ _ _ _ _ _ ⟨_, ss, _⟩ => labelsOfAll ss
  | _ => []

/-- The labels that an optional statement declares. -/
def labelsOfOption : Option Stmt → List String
  | none => []
  | some s => labelsOf s

/-- The labels that statements declare. -/
def labelsOfAll : List Stmt → List String
  | [] => []
  | s :: ss => labelsOf s ++ labelsOfAll ss

end

/-! ## Kinds of statements -/

/-- Whether a statement is evaluated as one node. -/
def isSimple : Stmt → Bool
  | .bad .. | .send .. | .incDec .. | .go .. | .defer .. | .empty .. | .assign .. | .expr _ => true
  | _ => false

/-- Whether a clause is the default. -/
def isDefault : Stmt → Bool
  | .caseClause _ exprs _ _ => exprs.isEmpty
  | .commClause _ comm _ _ => comm.isNone
  | _ => false

/-- Whether a statement is empty. -/
def isEmpty : Stmt → Bool
  | .empty .. => true
  | _ => false

/-! ## Targets of jumps -/

/-- The jumps that have a target: the unlabelled ones, and the labels that `break` and `continue` may
name. -/
structure Scope where
  brk : Bool
  cont : Bool
  fall : Bool
  brks : List String
  conts : List String

namespace Scope

/-- No jumps at all. -/
def none : Scope := ⟨false, false, false, [], []⟩

/-- Inside a statement that no `fallthrough` leaves. -/
def inner (sc : Scope) : Scope := { sc with fall := false }

/-- Inside a loop that may carry a label. -/
def inLoop (sc : Scope) (label : Option String) : Scope :=
  ⟨true, true, false, label.toList ++ sc.brks, label.toList ++ sc.conts⟩

/-- Inside a clause of a statement that may carry a label. -/
def inClause (sc : Scope) (label : Option String) (fall : Bool) : Scope :=
  ⟨true, sc.cont, fall, label.toList ++ sc.brks, sc.conts⟩

/-- Whether a jump has a target, in a body that declares `labels`. -/
def resolves (sc : Scope) (labels : List String) (word : Lexeme) (name : Option String) : Bool :=
  match word, name with
  | .breakWord, .none => sc.brk
  | .breakWord, some x => sc.brks.contains x
  | .continueWord, .none => sc.cont
  | .continueWord, some x => sc.conts.contains x
  | .fallthroughWord, .none => sc.fall
  | .gotoWord, some x => labels.contains x
  | _, _ => false

end Scope

mutual

/-- Whether a statement, which may carry a label, is well-formed in a body that declares `labels`. -/
def wellFormed (labels : List String) (sc : Scope) (label : Option String) : Stmt → Bool
  | .labeled x _ s => wellFormed labels sc (some x.name) s
  | .branch _ word name => sc.resolves labels word (name.map (·.name))
  | .block ⟨_, ss, _⟩ => wellFormedAll labels sc.inner ss
  | .ite _ init _ ⟨_, ss, _⟩ otherwise =>
    wellFormedOption labels sc.inner init && wellFormedAll labels sc.inner ss &&
      wellFormedOption labels sc.inner otherwise
  | .switch _ init _ ⟨_, cs, _⟩ =>
    wellFormedOption labels sc.inner init && decide (cs.countP isDefault ≤ 1) &&
      wellFormedCases labels sc label true cs
  | .typeSwitch _ init assign ⟨_, cs, _⟩ =>
    wellFormedOption labels sc.inner init && wellFormed labels sc.inner none assign &&
      decide (cs.countP isDefault ≤ 1) && wellFormedCases labels sc label false cs
  | .select _ ⟨_, cs, _⟩ =>
    decide (cs.countP isDefault ≤ 1) && wellFormedComms labels sc label cs
  | .forLoop _ init _ post ⟨_, ss, _⟩ =>
    wellFormedOption labels sc.inner init && wellFormedAll labels (sc.inLoop label) ss &&
      wellFormedOption labels sc.inner post
  | .range _ _ _ _ _ _ _ ⟨_, ss, _⟩ => wellFormedAll labels (sc.inLoop label) ss
  | .caseClause .. | .commClause .. => false
  | _ => true

/-- Whether an optional statement is well-formed. -/
def wellFormedOption (labels : List String) (sc : Scope) : Option Stmt → Bool
  | none => true
  | some s => wellFormed labels sc none s

/-- Whether statements are well-formed. Only the last of them may fall through. -/
def wellFormedAll (labels : List String) (sc : Scope) : List Stmt → Bool
  | [] => true
  | s :: ss =>
    wellFormed labels { sc with fall := sc.fall && ss.all isEmpty } none s &&
      wellFormedAll labels sc ss

/-- Whether the clauses of a switch are well-formed. -/
def wellFormedCases (labels : List String) (sc : Scope) (label : Option String) (fall : Bool) :
    List Stmt → Bool
  | [] => true
  | .caseClause _ _ _ ss :: rest =>
    wellFormedAll labels (sc.inClause label (fall && !rest.isEmpty)) ss &&
      wellFormedCases labels sc label fall rest
  | _ :: _ => false

/-- Whether the clauses of a select are well-formed. -/
def wellFormedComms (labels : List String) (sc : Scope) (label : Option String) : List Stmt → Bool
  | [] => true
  | .commClause _ comm _ ss :: rest =>
    comm.all isSimple && wellFormedAll labels (sc.inClause label false) ss &&
      wellFormedComms labels sc label rest
  | _ :: _ => false

end

variable {labels : List String} {sc : Scope} {label : Option String} {cs : List Stmt}

theorem exists_of_wellFormedCases {fall : Bool} {c : Stmt}
    (h : wellFormedCases labels sc label fall (c :: cs) = true) :
    ∃ pos exprs colon ss, c = .caseClause pos exprs colon ss ∧
      wellFormedAll labels (sc.inClause label (fall && !cs.isEmpty)) ss = true ∧
      wellFormedCases labels sc label fall cs = true := by
  unfold wellFormedCases at h
  split at h
  next => simp_all
  next heq =>
    cases heq
    exact ⟨_, _, _, _, rfl, (Bool.and_eq_true_iff.mp h).1, (Bool.and_eq_true_iff.mp h).2⟩
  next => cases h

theorem exists_of_wellFormedComms {c : Stmt}
    (h : wellFormedComms labels sc label (c :: cs) = true) :
    ∃ pos comm colon ss, c = .commClause pos comm colon ss ∧ comm.all isSimple = true ∧
      wellFormedAll labels (sc.inClause label false) ss = true ∧
      wellFormedComms labels sc label cs = true := by
  unfold wellFormedComms at h
  split at h
  next => simp_all
  next heq =>
    cases heq
    have h := Bool.and_eq_true_iff.mp h
    exact ⟨_, _, _, _, rfl, (Bool.and_eq_true_iff.mp h.1).1, (Bool.and_eq_true_iff.mp h.1).2, h.2⟩
  next => cases h

theorem labelsOf_of_isSimple {s : Stmt} (h : isSimple s = true) : labelsOf s = [] := by
  cases s <;> first | rfl | cases h

/-- Each label of the body is declared once, and all statements are well-formed. -/
def WellFormed (body : Go.Block) : Prop :=
  (labelsOfAll body.stmts).Nodup ∧
    wellFormedAll (labelsOfAll body.stmts) .none body.stmts = true

instance (body : Go.Block) : Decidable (WellFormed body) :=
  inferInstanceAs (Decidable (_ ∧ _))

end LosslessGo.Flow
