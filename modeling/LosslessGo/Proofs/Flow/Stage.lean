import Mathlib.Data.List.Nodup
import Mathlib.Data.List.Lookmap
import LosslessGo.Proofs.Flow.Laid

/-!
# Stages of a layout

While a body is laid out, a block is finished once another one is gone on in. The blocks that were made
for later, and those of labels whose statement is still to come, are empty.

* `Stage.Ready` says so of a layout.
* `Completes g S` says that layout `g` has the finished blocks of stage `S` as they are.
* `Moved S S' F` says that a step leads from one stage to another and that `F` holds of all layouts that
  complete the latter. `Moved.trans` puts steps together.

The lemmas below are the steps: `Moved.emit`, `Moved.fresh`, `Moved.turn`, `Moved.land`, `Moved.declare`
and `Moved.bind`.
-/

namespace LosslessGo.Flow

open Go

/-! ## Blocks of a layout -/

namespace Layout

/-- The block of a number. -/
def block (l : Layout) (b : Nat) : Block := blockAt l.blocks.toList b

/-- The place that is reached. -/
def here (l : Layout) : Place := ⟨l.current, (l.block l.current).nodes.length⟩

/-- The block of a label. -/
def goto? (l : Layout) (x : String) : Option Nat := (l.label? x).map (·.goto)

/-- The blocks and the labels of a finished layout. -/
def chart (l : Layout) (labels : List String) : Chart := ⟨l.blocks.toList, labels, l.goto?⟩

variable {l : Layout} {b : Nat}

theorem block_eq (l : Layout) (b : Nat) : l.block b = l.blocks[b]?.getD ⟨[], []⟩ := by
  simp [block, blockAt, List.getD_eq_getElem?_getD]

@[simp] theorem size_fresh : l.fresh.size = l.size + 1 := by simp [size, fresh]

@[simp] theorem size_goOn : (l.goOn b).size = l.size := rfl

@[simp] theorem current_goOn : (l.goOn b).current = b := rfl

@[simp] theorem goOn_goOn {n : Nat} : (l.goOn b).goOn n = l.goOn n := rfl

@[simp] theorem size_emit {k : Key} : (l.emit k).size = l.size := by simp [size, emit]

@[simp] theorem size_follow {ns : List Nat} : (l.follow ns).size = l.size := by simp [size, follow]

/-- A block that is just made is as empty as one that is not made yet. -/
@[simp] theorem block_fresh : l.fresh.block b = l.block b := by
  rw [block_eq, block_eq]
  show (l.blocks.push ⟨[], []⟩)[b]?.getD _ = _
  rw [Array.getElem?_push]
  split
  next h => rw [h, Array.getElem?_eq_none (Nat.le_refl _)]; rfl
  next => rfl

/-- A change of the current block leaves the others. -/
theorem block_modify {f : Block → Block} (h : l.current < l.size) :
    ({ l with blocks := l.blocks.modify l.current f } : Layout).block b =
      if b = l.current then f (l.block b) else l.block b := by
  have h : l.current < l.blocks.size := h
  rw [block_eq, block_eq, Array.getElem?_modify]
  by_cases hb : b = l.current
  · rw [hb]
    simp [h]
  · simp [hb, Ne.symm hb]

theorem block_emit {k : Key} (h : l.current < l.size) :
    (l.emit k).block b =
      if b = l.current then { l.block b with nodes := (l.block b).nodes ++ [k] } else l.block b :=
  block_modify h

theorem block_follow {ns : List Nat} (h : l.current < l.size) :
    (l.follow ns).block b =
      if b = l.current then { l.block b with successors := (l.block b).successors ++ ns }
      else l.block b :=
  block_modify h

@[simp] theorem follow_nil : l.follow [] = l := by
  have h : l.blocks.modify l.current (fun b => b) = l.blocks := by
    ext <;> simp [Array.getElem_modify]
  simp [follow, h]

theorem fresh_follow {ns : List Nat} (h : l.current < l.size) :
    (l.follow ns).fresh = l.fresh.follow ns := by
  have h : l.current < l.blocks.size := h
  simp only [follow, fresh]
  congr 1
  ext i hi hi'
  · simp
  · simp only [Array.getElem_push, Array.getElem_modify, Array.size_modify]
    grind

theorem goto?_eq {x : String} {d : Label} (h : l.label? x = some d) : l.goto? x = some d.goto := by
  rw [goto?, h, Option.map_some]

/-- A record that is put before the others is that of its label. -/
theorem label?_cons {x y : String} {d : Label} :
    ({ l with labels := (x, d) :: l.labels } : Layout).label? y =
      if y = x then some d else l.label? y := by
  show ((x, d) :: l.labels).lookup y = _
  by_cases h : y = x
  · rw [if_pos h, h, List.lookup_cons_self]
  · rw [if_neg h, List.lookup_cons, beq_false_of_ne h]
    rfl

theorem declare_of_label? {x : String} {d : Label} (h : l.label? x = some d) : l.declare x = l := by
  simp only [label?] at h
  simp only [declare, h]

theorem declare_of_none {x : String} (h : l.label? x = none) :
    l.declare x = { l.fresh with labels := (x, ⟨l.size, none, none⟩) :: l.labels } := by
  simp only [label?] at h
  simp only [declare, h]

theorem exists_label?_declare (l : Layout) (x : String) : ∃ d, (l.declare x).label? x = some d := by
  cases h : l.label? x with
  | some d => exact ⟨d, by rw [declare_of_label? h, h]⟩
  | none => exact ⟨_, by rw [declare_of_none h, label?, List.lookup_cons_self]⟩

end Layout

/-! ## Stages -/

/-- A layout on the way: the labels whose record stays, the blocks that were made for later, and the
labels whose statement is still to come. -/
structure Stage where
  known : String → Option Label
  kept : List Nat
  due : List String
  layout : Layout

namespace Stage

/-- A block that is gone on in later. -/
def Waits (S : Stage) (b : Nat) : Prop := b ∈ S.kept ∨ ∃ x ∈ S.due, S.layout.goto? x = some b

/-- Statements may go on, and all blocks that wait are empty and different. -/
structure Ready (S : Stage) : Prop where
  current_lt : S.layout.current < S.layout.size
  unended : (S.layout.block S.layout.current).successors = []
  lt : ∀ {b}, S.Waits b → b < S.layout.size
  ne_current : ∀ {b}, S.Waits b → b ≠ S.layout.current
  empty : ∀ {b}, S.Waits b → S.layout.block b = ⟨[], []⟩
  kept_nodup : S.kept.Nodup
  due_nodup : S.due.Nodup
  kept_ne_goto : ∀ {b}, b ∈ S.kept → ∀ {x}, x ∈ S.due → S.layout.goto? x ≠ some b
  goto_inj : ∀ {x}, x ∈ S.due → ∀ {y}, y ∈ S.due → ∀ {b},
    S.layout.goto? x = some b → S.layout.goto? y = some b → x = y
  known_eq : ∀ {x d}, S.known x = some d → S.layout.label? x = some d
  known_not_due : ∀ {x d}, S.known x = some d → x ∉ S.due

end Stage

/-- Layout `g` has the finished blocks of a stage as they are, and adds nodes to the current one. -/
structure Completes (g : Layout) (S : Stage) : Prop where
  finished : ∀ {b}, b < S.layout.size → b ≠ S.layout.current → ¬S.Waits b →
    g.block b = S.layout.block b
  current : (S.layout.block S.layout.current).nodes <+: (g.block S.layout.current).nodes
  goto : ∀ {x b}, S.layout.goto? x = some b → g.goto? x = some b

/-- From a stage that is ready another one is reached, and `F` holds of what completes it. -/
def Moved (S S' : Stage) (F : Layout → Prop) : Prop :=
  S.Ready → S'.Ready ∧ ∀ g, Completes g S' → Completes g S ∧ F g

namespace Known

/-- The records after that of a label says where the labelled statement ends. -/
def bind (known : String → Option Label) (label : Option String) (brk : Nat) (cont : Option Nat)
    (x : String) : Option Label :=
  if label = some x then (known x).map fun d => ⟨d.goto, some brk, cont.or d.cont⟩ else known x

/-- The records except that of a label. -/
def drop (known : String → Option Label) (label : Option String) (x : String) : Option Label :=
  if label = some x then none else known x

theorem bind_of_eq {known : String → Option Label} {label : Option String} {brk : Nat}
    {cont : Option Nat} {x : String} {d : Label} (hx : label = some x) (h : known x = some d) :
    bind known label brk cont x = some ⟨d.goto, some brk, cont.or d.cont⟩ := by
  rw [bind, if_pos hx, h, Option.map_some]

theorem bind_of_ne {known : String → Option Label} {label : Option String} {brk : Nat}
    {cont : Option Nat} {x : String} (hx : label ≠ some x) : bind known label brk cont x = known x :=
  if_neg hx

theorem drop_eq_some_iff {known : String → Option Label} {label : Option String} {x : String}
    {d : Label} : drop known label x = some d ↔ label ≠ some x ∧ known x = some d := by
  rw [drop]
  split <;> simp_all

end Known

variable {S S' S'' : Stage} {F F' : Layout → Prop} {known known' : String → Option Label}
  {kept kept' : List Nat} {due due' : List String} {l : Layout}

namespace Moved

theorem refl : Moved S S fun _ => True := fun h => ⟨h, fun _ hg => ⟨hg, trivial⟩⟩

theorem trans (h : Moved S S' F) (h' : Moved S' S'' F') : Moved S S'' fun g => F g ∧ F' g := by
  intro hS
  obtain ⟨hS', hF⟩ := h hS
  obtain ⟨hS'', hF'⟩ := h' hS'
  refine ⟨hS'', fun g hg => ?_⟩
  obtain ⟨hg, hf'⟩ := hF' g hg
  obtain ⟨hg, hf⟩ := hF g hg
  exact ⟨hg, hf, hf'⟩

theorem mono (h : Moved S S' F) (hF : ∀ g, F g → F' g) : Moved S S' F' := by
  intro hS
  obtain ⟨hS', hg⟩ := h hS
  exact ⟨hS', fun g h => ⟨(hg g h).1, hF g (hg g h).2⟩⟩

/-- What a stage that is ready says may be used of the next step. -/
theorem of_ready (h : S.Ready → Moved S S' F) : Moved S S' F := fun hS => h hS hS

/-- The order of blocks and labels does not matter, and records may be forgotten. -/
theorem reorder (hkept : kept.Perm kept') (hdue : due.Perm due')
    (hknown : ∀ x d, known' x = some d → known x = some d) :
    Moved ⟨known, kept, due, l⟩ ⟨known', kept', due', l⟩ fun _ => True := by
  intro hS
  have hwaits {b} : Stage.Waits ⟨known', kept', due', l⟩ b ↔
      Stage.Waits ⟨known, kept, due, l⟩ b := by
    simp [Stage.Waits, hkept.mem_iff, hdue.mem_iff]
  refine ⟨⟨hS.current_lt, hS.unended, fun h => hS.lt (hwaits.mp h),
    fun h => hS.ne_current (hwaits.mp h), fun h => hS.empty (hwaits.mp h),
    hkept.nodup_iff.mp hS.kept_nodup, hdue.nodup_iff.mp hS.due_nodup,
    fun hb _ hx => hS.kept_ne_goto (hkept.mem_iff.mpr hb) (hdue.mem_iff.mpr hx),
    fun hx _ hy => hS.goto_inj (hdue.mem_iff.mpr hx) (hdue.mem_iff.mpr hy),
    fun h => hS.known_eq (hknown _ _ h),
    fun h hx => hS.known_not_due (hknown _ _ h) (hdue.mem_iff.mpr hx)⟩, fun g hg => ?_⟩
  exact ⟨⟨fun hlt hne hw => hg.finished hlt hne (mt hwaits.mp hw), hg.current, hg.goto⟩, trivial⟩

/-! ## Steps -/

theorem emit {k : Key} :
    Moved ⟨known, kept, due, l⟩ ⟨known, kept, due, l.emit k⟩ fun g =>
      Holds g.blocks.toList l.here k (l.emit k).here := by
  intro hS
  have hlt : l.current < l.size := hS.current_lt
  have hne {b} (h : b ≠ l.current) : (l.emit k).block b = l.block b := by
    rw [Layout.block_emit hlt, if_neg h]
  have hcur : (l.emit k).block l.current =
      { l.block l.current with nodes := (l.block l.current).nodes ++ [k] } := by
    rw [Layout.block_emit hlt, if_pos rfl]
  constructor
  · exact { hS with
      current_lt := by
        show l.current < (l.emit k).size
        rwa [Layout.size_emit]
      unended := by
        show ((l.emit k).block l.current).successors = []
        rw [hcur]
        exact hS.unended
      lt := fun h => by simpa using hS.lt h
      empty := fun h => (hne (hS.ne_current h)).trans (hS.empty h) }
  · intro g hg
    have hpre : (l.block l.current).nodes ++ [k] <+: (g.block l.current).nodes := by
      have h : ((l.emit k).block l.current).nodes <+: (g.block l.current).nodes := hg.current
      rwa [hcur] at h
    refine ⟨⟨fun hb hn hw => ?_, (List.prefix_append _ _).trans hpre, hg.goto⟩, ?_, ?_⟩
    · exact (hg.finished (by simpa using hb) hn hw).trans (hne hn)
    · obtain ⟨rest, h⟩ := hpre
      show (g.block l.current).nodes[(l.block l.current).nodes.length]? = some k
      rw [← h]
      simp
    · show Place.mk l.current ((l.emit k).block l.current).nodes.length = _
      rw [hcur]
      simp [Layout.here]

theorem fresh :
    Moved ⟨known, kept, due, l⟩ ⟨known, l.size :: kept, due, l.fresh⟩ fun _ =>
      l.fresh.here = l.here := by
  intro hS
  have hlt : l.current < l.size := hS.current_lt
  have hwaits {b} : Stage.Waits ⟨known, l.size :: kept, due, l.fresh⟩ b ↔
      b = l.size ∨ Stage.Waits ⟨known, kept, due, l⟩ b := by
    simp [Stage.Waits, or_assoc, Layout.goto?, Layout.label?, Layout.fresh]
  have hnew {b} (h : Stage.Waits ⟨known, kept, due, l⟩ b) : b ≠ l.size := (hS.lt h).ne
  constructor
  · exact { hS with
      current_lt := by
        show l.current < l.fresh.size
        rw [Layout.size_fresh]
        omega
      unended := by
        show (l.fresh.block l.current).successors = []
        rw [Layout.block_fresh]
        exact hS.unended
      lt := fun h => by
        show _ < l.fresh.size
        rw [Layout.size_fresh]
        rcases hwaits.mp h with rfl | h
        · omega
        · exact Nat.lt_succ_of_lt (hS.lt h)
      ne_current := fun h => by
        rcases hwaits.mp h with rfl | h
        · exact hlt.ne'
        · exact hS.ne_current h
      empty := fun h => by
        show l.fresh.block _ = _
        rw [Layout.block_fresh]
        rcases hwaits.mp h with rfl | h
        · simp [Layout.block_eq, Layout.size]
        · exact hS.empty h
      kept_nodup := List.nodup_cons.mpr ⟨fun h => hnew (.inl h) rfl, hS.kept_nodup⟩
      kept_ne_goto := fun h x hx hgoto => by
        rcases List.mem_cons.mp h with rfl | h
        · exact hnew (.inr ⟨x, hx, hgoto⟩) rfl
        · exact hS.kept_ne_goto h hx hgoto }
  · intro g hg
    refine ⟨⟨fun hb hn hw => ?_, ?_, hg.goto⟩, ?_⟩
    · have h := hg.finished (b := _) (by simpa using Nat.lt_succ_of_lt hb) hn fun h =>
        (hwaits.mp h).elim hb.ne hw
      rwa [Layout.block_fresh] at h
    · have h : (l.fresh.block l.current).nodes <+: (g.block l.current).nodes := hg.current
      rwa [Layout.block_fresh] at h
    · show Place.mk l.current (l.fresh.block l.current).nodes.length = _
      rw [Layout.block_fresh]
      rfl

theorem fresh_of {n : Nat} (hn : l.size = n) :
    Moved ⟨known, kept, due, l⟩ ⟨known, n :: kept, due, l.fresh⟩ fun _ => l.fresh.here = l.here :=
  hn ▸ fresh

/-- The current block is ended, and a block that waits is gone on in. -/
theorem follow_goOn {ns : List Nat} {r : Nat}
    (hr : Stage.Waits ⟨known, kept, due, l⟩ r) (hkept : kept'.Sublist kept)
    (hdue : due'.Sublist due)
    (hne : Stage.Ready ⟨known, kept, due, l⟩ → ¬Stage.Waits ⟨known', kept', due', l⟩ r)
    (hknown : ∀ x d, known' x = some d → known x = some d ∨ l.label? x = some d ∧ x ∉ due') :
    Moved ⟨known, kept, due, l⟩ ⟨known', kept', due', (l.follow ns).goOn r⟩ fun g =>
      Ends g.blocks.toList l.here ns ∧ ((l.follow ns).goOn r).here = .start r := by
  intro hS
  have hlt : l.current < l.size := hS.current_lt
  have hother {b} (h : b ≠ l.current) : (l.follow ns).block b = l.block b := by
    rw [Layout.block_follow hlt, if_neg h]
  have hcur : (l.follow ns).block l.current = { l.block l.current with successors := ns } := by
    have h : (l.block l.current).successors = [] := hS.unended
    rw [Layout.block_follow hlt, if_pos rfl, h, List.nil_append]
  have hwaits {b} (h : Stage.Waits ⟨known', kept', due', (l.follow ns).goOn r⟩ b) :
      b ≠ r ∧ Stage.Waits ⟨known, kept, due, l⟩ b := by
    refine ⟨?_, h.imp (hkept.mem ·) fun ⟨x, hx, hb⟩ => ⟨x, hdue.mem hx, hb⟩⟩
    rintro rfl
    exact hne hS h
  have hempty : (l.follow ns).block r = ⟨[], []⟩ :=
    (hother (hS.ne_current hr)).trans (hS.empty hr)
  constructor
  · exact {
      current_lt := by
        show r < (l.follow ns).size
        rw [Layout.size_follow]
        exact hS.lt hr
      unended := congrArg Block.successors hempty
      lt := fun h => by
        show _ < (l.follow ns).size
        rw [Layout.size_follow]
        exact hS.lt (hwaits h).2
      ne_current := fun h => (hwaits h).1
      empty := fun h => (hother (hS.ne_current (hwaits h).2)).trans (hS.empty (hwaits h).2)
      kept_nodup := hS.kept_nodup.sublist hkept
      due_nodup := hS.due_nodup.sublist hdue
      kept_ne_goto := fun hb _ hx => hS.kept_ne_goto (hkept.mem hb) (hdue.mem hx)
      goto_inj := fun hx _ hy => hS.goto_inj (hdue.mem hx) (hdue.mem hy)
      known_eq := fun h => (hknown _ _ h).elim hS.known_eq (·.1)
      known_not_due := fun h => (hknown _ _ h).elim
        (fun h hx => hS.known_not_due h (hdue.mem hx)) (·.2) }
  · intro g hg
    have hend : g.block l.current = { l.block l.current with successors := ns } := by
      rw [← hcur]
      refine hg.finished (b := l.current) ?_ (hS.ne_current hr).symm fun h => ?_
      · show l.current < (l.follow ns).size
        rwa [Layout.size_follow]
      · exact hS.ne_current (hwaits h).2 rfl
    have hnodes : (l.block l.current).nodes = (g.block l.current).nodes := by rw [hend]
    refine ⟨⟨fun hb hn hw => ?_, hnodes ▸ List.prefix_rfl, hg.goto⟩,
      ⟨congrArg List.length hnodes, ?_⟩, ?_⟩
    · rw [← hother hn]
      refine hg.finished ?_ (fun h => hw (h ▸ hr)) fun h => hw (hwaits h).2
      show _ < (l.follow ns).size
      rwa [Layout.size_follow]
    · show (g.block l.current).successors = ns
      rw [hend]
    · show Place.mk r ((l.follow ns).block r).nodes.length = _
      rw [hempty]
      rfl

/-- The current block is ended, and a block that was made for later is gone on in. -/
theorem turn {ns : List Nat} {r : Nat} (h : kept.Perm (r :: kept')) :
    Moved ⟨known, kept, due, l⟩ ⟨known, kept', due, (l.follow ns).goOn r⟩ fun g =>
      Ends g.blocks.toList l.here ns ∧ ((l.follow ns).goOn r).here = .start r := by
  refine ((reorder h (.refl _) fun _ _ => id).trans (follow_goOn (.inl List.mem_cons_self)
    (List.sublist_cons_self _ _) (.refl _) ?_ fun _ _ => .inl)).mono fun g hg => hg.2
  rintro hS (hr | ⟨x, hx, hr⟩)
  · exact (List.nodup_cons.mp hS.kept_nodup).1 hr
  · exact hS.kept_ne_goto List.mem_cons_self hx hr

theorem jump {n r : Nat} (h : kept.Perm (r :: kept')) :
    Moved ⟨known, kept, due, l⟩ ⟨known, kept', due, (l.jump n).goOn r⟩ fun g =>
      Ends g.blocks.toList l.here [n] ∧ ((l.jump n).goOn r).here = .start r :=
  turn h

/-- The current block is ended, and the block of a label that is due is gone on in. -/
theorem land {x : String} {d : Label} (h : l.label? x = some d) :
    Moved ⟨known, kept, x :: due, l⟩
      ⟨Function.update known x (some d), kept, due, (l.jump d.goto).goOn d.goto⟩ fun g =>
      Ends g.blocks.toList l.here [d.goto] ∧ ((l.jump d.goto).goOn d.goto).here = .start d.goto := by
  have hgoto := Layout.goto?_eq h
  refine of_ready fun hS => follow_goOn (.inr ⟨x, List.mem_cons_self, hgoto⟩) (.refl _)
    (List.sublist_cons_self _ _) ?_ fun y d' hy => ?_
  · rintro hS (hr | ⟨y, hy, hr⟩)
    · exact hS.kept_ne_goto hr List.mem_cons_self hgoto
    · have hxy := hS.goto_inj List.mem_cons_self (List.mem_cons_of_mem _ hy) hgoto hr
      exact (List.nodup_cons.mp hS.due_nodup).1 (hxy ▸ hy)
  · by_cases hxy : y = x
    · rw [hxy, Function.update_self] at hy
      rw [hxy, ← hy]
      exact .inr ⟨h, (List.nodup_cons.mp hS.due_nodup).1⟩
    · rw [Function.update_of_ne hxy] at hy
      exact .inl hy

/-- A block that was made for later becomes that of a label without one. -/
theorem record {x : String} {r : Nat} (h : l.label? x = none) :
    Moved ⟨known, r :: kept, due, l⟩
      ⟨known, kept, due, { l with labels := (x, ⟨r, none, none⟩) :: l.labels }⟩ fun _ => True := by
  set l' : Layout := { l with labels := (x, ⟨r, none, none⟩) :: l.labels }
  have hgoto {y} : l'.goto? y = if y = x then some r else l.goto? y := by
    rw [Layout.goto?, Layout.label?_cons]
    split <;> rfl
  have hold {y b} (hb : l.goto? y = some b) : l'.goto? y = some b := by
    rw [hgoto, if_neg, hb]
    rintro rfl
    simp [Layout.goto?, h] at hb
  have hwaits {b} (hb : Stage.Waits ⟨known, kept, due, l'⟩ b) :
      Stage.Waits ⟨known, r :: kept, due, l⟩ b := by
    rcases hb with hb | ⟨y, hy, hb⟩
    · exact .inl (List.mem_cons_of_mem _ hb)
    · have hb : l'.goto? y = some b := hb
      rw [hgoto] at hb
      split at hb
      · exact .inl (Option.some.inj hb ▸ List.mem_cons_self)
      · exact .inr ⟨y, hy, hb⟩
  intro hS
  constructor
  · exact {
      current_lt := hS.current_lt
      unended := hS.unended
      lt := fun hb => hS.lt (hwaits hb)
      ne_current := fun hb => hS.ne_current (hwaits hb)
      empty := fun hb => hS.empty (hwaits hb)
      kept_nodup := (List.nodup_cons.mp hS.kept_nodup).2
      due_nodup := hS.due_nodup
      kept_ne_goto := fun {b} hb {y} hy (hyb : l'.goto? y = some b) => by
        rw [hgoto] at hyb
        split at hyb
        · exact (List.nodup_cons.mp hS.kept_nodup).1 (Option.some.inj hyb ▸ hb)
        · exact hS.kept_ne_goto (List.mem_cons_of_mem _ hb) hy hyb
      goto_inj := fun {y} hy {z} hz {b} (hyb : l'.goto? y = some b) (hzb : l'.goto? z = some b) => by
        have hr {z} (hz : z ∈ due) : l.goto? z ≠ some r := hS.kept_ne_goto List.mem_cons_self hz
        rw [hgoto] at hyb hzb
        split at hyb <;> split at hzb
        next hy hz => rw [hy, hz]
        next => exact absurd (hzb.trans hyb.symm) (hr hz)
        next => exact absurd (hyb.trans hzb.symm) (hr hy)
        next => exact hS.goto_inj hy hz hyb hzb
      known_eq := fun {y d} hy => by
        have hyd : l.label? y = some d := hS.known_eq hy
        show l'.label? y = some d
        rw [Layout.label?_cons, if_neg, hyd]
        rintro rfl
        cases h.symm.trans hyd
      known_not_due := hS.known_not_due }
  · exact fun g hg => ⟨⟨fun hb hn hw => hg.finished hb hn (mt hwaits hw), hg.current,
      fun hb => hg.goto (hold hb)⟩, trivial⟩

/-- A label gets a block, if it has none. -/
theorem declare {x : String} :
    Moved ⟨known, kept, due, l⟩ ⟨known, kept, due, l.declare x⟩ fun g =>
      (l.declare x).here = l.here ∧
        ∀ d, (l.declare x).label? x = some d → g.goto? x = some d.goto := by
  have hsame : Moved ⟨known, kept, due, l⟩ ⟨known, kept, due, l.declare x⟩ fun _ =>
      (l.declare x).here = l.here := by
    cases h : l.label? x with
    | some d =>
      rw [Layout.declare_of_label? h]
      exact refl.mono fun _ _ => rfl
    | none =>
      rw [Layout.declare_of_none h]
      exact (fresh.trans (record h)).mono fun _ hg => hg.1
  intro hS
  obtain ⟨hS', hF⟩ := hsame hS
  exact ⟨hS', fun g hg => ⟨(hF g hg).1, (hF g hg).2, fun d hd => hg.goto (Layout.goto?_eq hd)⟩⟩

/-- The record of a label says where the labelled statement ends. -/
theorem bind {label : Option String} {brk : Nat} {cont : Option Nat}
    (hlabel : ∀ x ∈ label, ∃ d, known x = some d) :
    Moved ⟨known, kept, due, l⟩ ⟨Known.bind known label brk cont, kept, due, l.bind label brk cont⟩
      fun _ => (l.bind label brk cont).here = l.here := by
  cases label with
  | none =>
    have h : Known.bind known none brk cont = known := funext fun _ => if_neg nofun
    rw [h]
    exact refl.mono fun _ _ => rfl
  | some x =>
    obtain ⟨d, hd⟩ := hlabel x rfl
    intro hS
    have hxd : l.label? x = some d := hS.known_eq hd
    have hbind : l.bind (some x) brk cont =
        { l with labels := (x, ⟨d.goto, some brk, cont.or d.cont⟩) :: l.labels } := by
      simp only [Layout.bind, hxd]
    rw [hbind]
    set l' : Layout := { l with labels := (x, ⟨d.goto, some brk, cont.or d.cont⟩) :: l.labels }
    have hgoto {y} : l'.goto? y = l.goto? y := by
      rw [Layout.goto?, Layout.label?_cons]
      split
      next h => rw [h, Layout.goto?_eq hxd, Option.map_some]
      next => rfl
    have hwaits {b} : Stage.Waits ⟨Known.bind known (some x) brk cont, kept, due, l'⟩ b ↔
        Stage.Waits ⟨known, kept, due, l⟩ b := by
      simp [Stage.Waits, hgoto]
    have hknown {y d'} (h : Known.bind known (some x) brk cont y = some d') :
        l'.label? y = some d' ∧ ∃ d, known y = some d := by
      rw [Layout.label?_cons]
      by_cases hy : y = x
      · rw [hy, Known.bind_of_eq rfl hd] at h
        exact ⟨by rw [if_pos hy, h], d, hy ▸ hd⟩
      · rw [Known.bind_of_ne fun h => hy (Option.some.inj h).symm] at h
        exact ⟨by rw [if_neg hy]; exact hS.known_eq h, d', h⟩
    constructor
    · exact {
        current_lt := hS.current_lt
        unended := hS.unended
        lt := fun h => hS.lt (hwaits.mp h)
        ne_current := fun h => hS.ne_current (hwaits.mp h)
        empty := fun h => hS.empty (hwaits.mp h)
        kept_nodup := hS.kept_nodup
        due_nodup := hS.due_nodup
        kept_ne_goto := fun hb _ hy h => hS.kept_ne_goto hb hy (hgoto.symm.trans h)
        goto_inj := fun hy _ hz _ h h' =>
          hS.goto_inj hy hz (hgoto.symm.trans h) (hgoto.symm.trans h')
        known_eq := fun h => (hknown h).1
        known_not_due := fun h => hS.known_not_due (hknown h).2.choose_spec }
    · exact fun g hg => ⟨⟨fun hb hn hw => hg.finished hb hn (mt hwaits.mp hw), hg.current,
        fun h => hg.goto (hgoto.trans h)⟩, rfl⟩

end Moved

end LosslessGo.Flow
