import Mathlib.Logic.Relation
import Mathlib.Data.List.Perm.Subperm
import LosslessGo.Proofs.Flow.Clauses

/-!
# Steps of a layout

A body, well-formed or not, is laid out in a few kinds of steps. Which blocks a step may lead to and in
which blocks it may go on is kept beside the layout, so that what holds of all layouts is shown for the
steps only.

* `Site.Step` says what one step does, `Site.Reaches` what several do.
* `Stepwise` says that a part of a body is laid out in steps.
* `stepwise` and the theorems beside it show this of all statements, along the functions that lay them
  out.
-/

namespace LosslessGo.Flow

open Go

/-- The blocks that a label leads to. -/
def Label.blocks (d : Label) : List Nat := d.goto :: (d.brk.toList ++ d.cont.toList)

/-- The blocks that jumps without a label lead to. -/
def Jumps.blocks (j : Jumps) : List Nat := j.brk.toList ++ (j.cont.toList ++ j.next.toList)

/-- A layout on the way: the blocks that may be led to, those that were made to be gone on in once, and
the labels whose statement is still to come. -/
structure Site where
  targets : List Nat
  kept : List Nat
  due : List String
  layout : Layout

/-- A block that may be led to, by a label or otherwise. -/
def Site.Leads (S : Site) (n : Nat) : Prop :=
  n ∈ S.targets ∨ ∃ x d, S.layout.label? x = some d ∧ n ∈ d.blocks

/-- One step. A block is ended by a jump or a choice or without any, and a block that is kept is gone on
in, that of a label that is due or a new one. -/
inductive Site.Step : Site → Site → Prop where
  | emit {targets kept : List Nat} {due : List String} {l : Layout} {k : Key} :
    Step ⟨targets, kept, due, l⟩ ⟨targets, kept, due, l.emit k⟩
  | fresh {targets kept : List Nat} {due : List String} {l : Layout} :
    Step ⟨targets, kept, due, l⟩ ⟨l.size :: targets, l.size :: kept, due, l.fresh⟩
  | turn {targets kept ns : List Nat} {due : List String} {l : Layout} {r : Nat}
    (hlen : ns.length ≤ 2) (h : ∀ n ∈ ns, Site.Leads ⟨targets, r :: kept, due, l⟩ n) :
    Step ⟨targets, r :: kept, due, l⟩ ⟨targets, kept, due, (l.follow ns).goOn r⟩
  | leap {targets kept ns : List Nat} {due : List String} {l : Layout} (hlen : ns.length ≤ 2)
    (h : ∀ n ∈ ns, Site.Leads ⟨targets, kept, due, l⟩ n) :
    Step ⟨targets, kept, due, l⟩ ⟨targets, kept, due, (l.follow ns).goOnFresh⟩
  | land {targets kept : List Nat} {due : List String} {l : Layout} {x : String} {d : Label}
    (h : l.label? x = some d) :
    Step ⟨targets, kept, x :: due, l⟩ ⟨targets, kept, due, (l.jump d.goto).goOn d.goto⟩
  | record {targets kept : List Nat} {due : List String} {l : Layout} {x : String} {r : Nat}
    (h : l.label? x = none) (hr : r ∈ targets) :
    Step ⟨targets, r :: kept, due, l⟩
      ⟨targets, kept, due, { l with labels := (x, ⟨r, none, none⟩) :: l.labels }⟩
  | bind {targets kept : List Nat} {due : List String} {l : Layout} {x : String} {d : Label}
    {brk : Nat} {cont : Option Nat} (h : l.label? x = some d) (hbrk : brk ∈ targets)
    (hcont : cont.toList ⊆ targets) :
    Step ⟨targets, kept, due, l⟩
      ⟨targets, kept, due, { l with labels := (x, ⟨d.goto, some brk, cont.or d.cont⟩) :: l.labels }⟩
  | forget {targets targets' kept kept' : List Nat} {due due' : List String} {l : Layout}
    (htargets : targets' ⊆ targets) (hkept : kept'.Subperm kept) (hdue : due'.Subperm due) :
    Step ⟨targets, kept, due, l⟩ ⟨targets', kept', due', l⟩

/-- Some steps. -/
abbrev Site.Reaches : Site → Site → Prop := Relation.ReflTransGen Step

/-- A part of a body that declares `labels` is laid out in steps, where the jumps in it may lead to their
blocks. -/
def Stepwise (part : Jumps → Layout → Layout) (labels : List String) : Prop :=
  ∀ (j : Jumps) (targets kept : List Nat) (due : List String) (l : Layout), j.blocks ⊆ targets →
    Site.Reaches ⟨targets, kept, labels ++ due, l⟩ ⟨targets, kept, due, part j l⟩

/-! ## Rules -/

variable {targets targets' kept kept' : List Nat} {due due' : List String} {l : Layout} {j : Jumps}
  {ns : List Nat} {n r : Nat}

namespace Site.Reaches

theorem emit {k : Key} : Reaches ⟨targets, kept, due, l⟩ ⟨targets, kept, due, l.emit k⟩ :=
  .single .emit

theorem emits (ks : List Key) :
    Reaches ⟨targets, kept, due, l⟩ ⟨targets, kept, due, ks.foldl Layout.emit l⟩ := by
  induction ks generalizing l with
  | nil => exact .refl
  | cons k ks ih => exact emit.trans ih

theorem fresh_of (h : l.size = n) :
    Reaches ⟨targets, kept, due, l⟩ ⟨n :: targets, n :: kept, due, l.fresh⟩ :=
  h ▸ .single .fresh

theorem fresh : Reaches ⟨targets, kept, due, l⟩ ⟨l.size :: targets, l.size :: kept, due, l.fresh⟩ :=
  .single .fresh

theorem forget (htargets : targets' ⊆ targets) (hkept : kept'.Subperm kept)
    (hdue : due'.Subperm due) : Reaches ⟨targets, kept, due, l⟩ ⟨targets', kept', due', l⟩ :=
  .single (.forget htargets hkept hdue)

/-- Blocks that were made on the way are not led to any more. -/
theorem narrow (h : targets' ⊆ targets) :
    Reaches ⟨targets, kept, due, l⟩ ⟨targets', kept, due, l⟩ :=
  forget h (.refl _) (.refl _)

/-- Labels are forgotten, or taken in another order. -/
theorem sort (h : due'.Subperm due) :
    Reaches ⟨targets, kept, due, l⟩ ⟨targets, kept, due', l⟩ :=
  forget (List.Subset.refl _) (.refl _) h

/-- The labels of a part that is left out are forgotten. -/
theorem skip (labels : List String) :
    Reaches ⟨targets, kept, labels ++ due, l⟩ ⟨targets, kept, due, l⟩ :=
  sort (List.sublist_append_right _ _).subperm

/-- The current block is ended, and a block that is kept is gone on in. -/
theorem turn (h : kept.Perm (r :: kept')) (hlen : ns.length ≤ 2) (hns : ns ⊆ targets) :
    Reaches ⟨targets, kept, due, l⟩ ⟨targets, kept', due, (l.follow ns).goOn r⟩ :=
  (forget (List.Subset.refl _) h.symm.subperm (.refl _)).tail (.turn hlen fun _ hn => .inl (hns hn))

theorem jump (h : kept.Perm (r :: kept')) (hn : n ∈ targets) :
    Reaches ⟨targets, kept, due, l⟩ ⟨targets, kept', due, (l.jump n).goOn r⟩ :=
  turn h (Nat.le_succ 1) (List.cons_subset.mpr ⟨hn, List.nil_subset _⟩)

theorem fork {yes no : Nat} (h : kept.Perm (r :: kept')) (hyes : yes ∈ targets)
    (hno : no ∈ targets) :
    Reaches ⟨targets, kept, due, l⟩ ⟨targets, kept', due, (l.fork yes no).goOn r⟩ :=
  turn h (Nat.le_refl 2)
    (List.cons_subset.mpr ⟨hyes, List.cons_subset.mpr ⟨hno, List.nil_subset _⟩⟩)

theorem goOn (h : kept.Perm (r :: kept')) :
    Reaches ⟨targets, kept, due, l⟩ ⟨targets, kept', due, l.goOn r⟩ := by
  have h : Reaches ⟨targets, kept, due, l⟩ ⟨targets, kept', due, (l.follow []).goOn r⟩ :=
    turn h (Nat.zero_le 2) (List.nil_subset _)
  rwa [Layout.follow_nil] at h

theorem goOnFresh : Reaches ⟨targets, kept, due, l⟩ ⟨targets, kept, due, l.goOnFresh⟩ := by
  have h : Reaches ⟨targets, kept, due, l⟩ ⟨targets, kept, due, (l.follow []).goOnFresh⟩ :=
    .single (.leap (Nat.zero_le 2) nofun)
  rwa [Layout.follow_nil] at h

/-- A jump leads to its target, or to a new block where it has none. -/
theorem leap {target : Option Nat} (h : ∀ n ∈ target, Site.Leads ⟨targets, kept, due, l⟩ n) :
    Reaches ⟨targets, kept, due, l⟩ ⟨targets, kept, due, l.leap target⟩ := by
  cases target with
  | some n => exact .single (.leap (Nat.le_succ 1) fun m hm => h m (List.mem_singleton.mp hm ▸ rfl))
  | none =>
    have hleap : Reaches ⟨l.size :: targets, l.size :: kept, due, l.fresh⟩
        ⟨l.size :: targets, l.size :: kept, due, (l.fresh.jump l.size).goOnFresh⟩ :=
      .single (.leap (Nat.le_succ 1) fun m hm =>
        .inl (List.mem_singleton.mp hm ▸ List.mem_cons_self))
    exact fresh.trans (hleap.trans
      (forget (List.subset_cons_self _ _) (List.sublist_cons_self _ _).subperm (.refl _)))

theorem declare (x : String) :
    Reaches ⟨targets, kept, due, l⟩ ⟨targets, kept, due, l.declare x⟩ := by
  cases h : l.label? x with
  | some d => rw [Layout.declare_of_label? h]
  | none =>
    rw [Layout.declare_of_none h]
    exact fresh.trans (.trans (.single (.record h List.mem_cons_self))
      (narrow (List.subset_cons_self _ _)))

theorem bind (label : Option String) {brk : Nat} {cont : Option Nat} (hbrk : brk ∈ targets)
    (hcont : cont.toList ⊆ targets) :
    Reaches ⟨targets, kept, due, l⟩ ⟨targets, kept, due, l.bind label brk cont⟩ := by
  unfold Layout.bind
  split
  next => exact .refl
  next x =>
    split
    next => exact .refl
    next d hd => exact .single (.bind hd hbrk hcont)

theorem bindBreak (label : Option String) {brk : Nat} (hbrk : brk ∈ targets) :
    Reaches ⟨targets, kept, due, l⟩ ⟨targets, kept, due, l.bind label brk none⟩ :=
  bind label hbrk (List.nil_subset _)

/-- A condition is laid out, and a block that is kept is gone on in. -/
theorem branch (c : Expr) {yes no : Nat} (h : kept.Perm (r :: kept')) (hyes : yes ∈ targets)
    (hno : no ∈ targets) :
    Reaches ⟨targets, kept, due, l⟩ ⟨targets, kept', due, (l.branch c yes no).goOn r⟩ := by
  fun_induction Layout.branch l c yes no generalizing targets kept kept' r with
  | case1 l x _ y yes no ihx ihy | case2 l x _ y yes no ihx ihy =>
    refine fresh.trans (.trans (ihx (.refl _) ?_ ?_) (.trans (ihy h ?_ ?_)
      (narrow (List.subset_cons_self _ _)))) <;> simp [hyes, hno]
  | case3 l _ x yes no ih => exact ih h hno hyes
  | case4 l _ x _ yes no ih => exact ih h hyes hno
  | case5 l x yes no => exact emit.trans (fork h hyes hno)

/-- The expressions of a clause are compared with, and its statements come before what else is. -/
theorem compare {body : Nat} (x : Expr) (xs : List Expr) (hbody : body ∈ targets) :
    Reaches ⟨targets, body :: kept, due, l⟩
      ⟨targets, (l.compare body (x :: xs)).current :: kept, due,
        (l.compare body (x :: xs)).goOn body⟩ := by
  induction xs generalizing l x with
  | nil =>
    rw [Layout.compare_cons, Layout.compare_nil, Layout.current_goOn, Layout.goOn_goOn]
    refine fresh.trans (emit.trans (.trans (fork (.swap _ _ _) ?_ ?_)
      (narrow (List.subset_cons_self _ _)))) <;> simp [hbody]
  | cons y ys ih =>
    rw [Layout.compare_cons]
    refine fresh.trans (emit.trans (.trans (fork (.refl _) ?_ ?_)
      (.trans (narrow (List.subset_cons_self _ _)) (ih y)))) <;> simp [hbody]

/-- The types of a clause are compared with, and its statements come before what else is. -/
theorem compareTypes {body : Nat} (x : Expr) (xs : List Expr) (hbody : body ∈ targets) :
    Reaches ⟨targets, body :: kept, due, l⟩
      ⟨targets, (l.compareTypes body (x :: xs)).current :: kept, due,
        (l.compareTypes body (x :: xs)).goOn body⟩ := by
  induction xs generalizing l x with
  | nil =>
    rw [Layout.compareTypes_cons, Layout.compareTypes_nil, Layout.current_goOn, Layout.goOn_goOn]
    refine fresh.trans (.trans (fork (.swap _ _ _) ?_ ?_) (narrow (List.subset_cons_self _ _))) <;>
      simp [hbody]
  | cons y ys ih =>
    rw [Layout.compareTypes_cons]
    refine fresh.trans (.trans (fork (.refl _) ?_ ?_)
      (.trans (narrow (List.subset_cons_self _ _)) (ih y))) <;> simp [hbody]

/-- A jump leads to where its word or its label says. -/
theorem leave (word : Lexeme) (name : Option String) (hj : j.blocks ⊆ targets) :
    Reaches ⟨targets, kept, due, l⟩ ⟨targets, kept, due, l.leave j word name⟩ := by
  have hword {target : Option Nat} (h : target.toList ⊆ j.blocks) :
      Reaches ⟨targets, kept, due, l⟩ ⟨targets, kept, due, l.leap target⟩ :=
    leap fun n hn => .inl (hj (h (Option.mem_toList.mpr hn)))
  have hlabel (x : String) {aim : Label → Option Nat} (h : ∀ d, (aim d).toList ⊆ d.blocks) :
      Reaches ⟨targets, kept, due, l⟩
        ⟨targets, kept, due, (l.declare x).leap (((l.declare x).label? x).bind aim)⟩ := by
    refine (declare x).trans (leap fun n hn => ?_)
    obtain ⟨d, hd, hn⟩ := Option.bind_eq_some_iff.mp hn
    exact .inr ⟨x, d, hd, h d (Option.mem_toList.mpr hn)⟩
  unfold Layout.leave
  split
  case h_1 => exact hword (by simp [Jumps.blocks])
  case h_2 => exact hword (by simp [Jumps.blocks])
  case h_3 => exact hword (by simp [Jumps.blocks])
  case h_4 x => exact hlabel x fun d => by simp [Label.blocks]
  case h_5 x => exact hlabel x fun d => by simp [Label.blocks]
  case h_6 x =>
    rw [Option.map_eq_bind]
    exact hlabel x fun d => by simp [Label.blocks]
  case h_7 => exact leap nofun

end Site.Reaches

end LosslessGo.Flow
