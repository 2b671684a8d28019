import LosslessGo.Proofs.Flow.Stepwise

/-!
# How blocks are ended

A graph of basic blocks is well-formed where all successors are blocks of it and every block is ended
once, by a jump or by a choice.

* `Site.Sound` holds of the layouts of all bodies: what is led to is made already, and is not the entry.
* `Site.Single` holds where labels are declared once: every block that is gone on in is still open.
* `endings` lists the blocks of a body that are ended in the order in which this is done, and
  `blocksOf_sound` puts the two together.
-/

namespace LosslessGo.Flow

open Go

/-- What ends a block: a jump or a choice. -/
def IsTerminator (ns : List Nat) : Prop := (∃ n, ns = [n]) ∨ ∃ yes no, ns = [yes, no]

/-- What was added to a block as its successors, from the first time on. -/
def Layout.added (l : Layout) (b : Nat) : List Nat :=
  (l.ended.reverse.filter (·.1 = b)).flatMap (·.2)

/-! ## Blocks that are led to -/

/-- The blocks that are led to are made already, and none of them is the entry. The successors of a
block are what was added to it. -/
structure Site.Sound (S : Site) : Prop where
  current_lt : S.layout.current < S.layout.size
  leads : ∀ {n}, S.Leads n → 0 < n ∧ n < S.layout.size
  kept_lt : ∀ {b}, b ∈ S.kept → b < S.layout.size
  successors : ∀ {b n}, n ∈ (S.layout.block b).successors → 0 < n ∧ n < S.layout.size
  added : ∀ b, (S.layout.block b).successors = S.layout.added b
  isTerminator : ∀ {t}, t ∈ S.layout.ended → IsTerminator t.2

variable {S S' : Site} {targets targets' kept kept' : List Nat} {due due' : List String} {l l' : Layout}
  {ns : List Nat} {r : Nat} {k : Key}

theorem isTerminator_of_length (h : ns ≠ []) (hlen : ns.length ≤ 2) : IsTerminator ns := by
  match ns with
  | [n] => exact .inl ⟨n, rfl⟩
  | [yes, no] => exact .inr ⟨yes, no, rfl⟩

namespace Layout

theorem added_follow (b : Nat) :
    (l.follow ns).added b = l.added b ++ if b = l.current then ns else [] := by
  by_cases hns : ns = []
  · simp [hns]
  · have hended : (l.follow ns).ended = (l.current, ns) :: l.ended := if_neg hns
    rw [added, hended, List.reverse_cons, List.filter_append, List.flatMap_append, added]
    by_cases hb : b = l.current
    · simp [hb]
    · simp [hb, Ne.symm hb]

theorem mem_ended_follow {t : Nat × List Nat} (h : t ∈ (l.follow ns).ended) :
    t ∈ l.ended ∨ t = (l.current, ns) ∧ ns ≠ [] := by
  have hended : (l.follow ns).ended = if ns = [] then l.ended else (l.current, ns) :: l.ended := rfl
  rw [hended] at h
  split at h
  next => exact .inl h
  next hns => exact (List.mem_cons.mp h).symm.imp_right fun ht => ⟨ht, hns⟩

end Layout

namespace Site.Sound

theorem emit (h : Sound ⟨targets, kept, due, l⟩) : Sound ⟨targets, kept, due, l.emit k⟩ := by
  have hblock b : ((l.emit k).block b).successors = (l.block b).successors := by
    rw [Layout.block_emit h.current_lt]
    split <;> rfl
  have hsize : (l.emit k).size = l.size := Layout.size_emit
  constructor
  · exact hsize ▸ h.current_lt
  · exact hsize ▸ h.leads
  · exact hsize ▸ h.kept_lt
  · intro b n hn
    rw [hblock] at hn
    exact hsize ▸ h.successors hn
  · exact fun b => (hblock b).trans (h.added b)
  · exact h.isTerminator

theorem fresh (h : Sound ⟨targets, kept, due, l⟩) :
    Sound ⟨l.size :: targets, l.size :: kept, due, l.fresh⟩ := by
  have hsize : l.fresh.size = l.size + 1 := Layout.size_fresh
  have hlt : l.current < l.size := h.current_lt
  have hold {n} (hn : Leads ⟨l.size :: targets, l.size :: kept, due, l.fresh⟩ n) :
      n = l.size ∨ Leads ⟨targets, kept, due, l⟩ n :=
    hn.elim (fun hn => (List.mem_cons.mp hn).imp_right .inl) fun hn => .inr (.inr hn)
  constructor
  · exact hsize ▸ Nat.lt_succ_of_lt hlt
  · intro n hn
    show 0 < n ∧ n < l.fresh.size
    rcases hold hn with rfl | hn
    · omega
    · have := h.leads hn
      exact ⟨this.1, hsize ▸ Nat.lt_succ_of_lt this.2⟩
  · intro b hb
    show b < l.fresh.size
    rcases List.mem_cons.mp hb with rfl | hb
    · omega
    · exact hsize ▸ Nat.lt_succ_of_lt (h.kept_lt hb)
  · intro b n (hn : n ∈ (l.fresh.block b).successors)
    rw [Layout.block_fresh] at hn
    have := h.successors hn
    exact ⟨this.1, hsize ▸ Nat.lt_succ_of_lt this.2⟩
  · intro b
    show (l.fresh.block b).successors = _
    rw [Layout.block_fresh]
    exact h.added b
  · exact h.isTerminator

theorem follow (h : Sound ⟨targets, kept, due, l⟩) (hlen : ns.length ≤ 2)
    (hns : ∀ n ∈ ns, Leads ⟨targets, kept, due, l⟩ n) :
    Sound ⟨targets, kept, due, l.follow ns⟩ := by
  have hsize : (l.follow ns).size = l.size := Layout.size_follow
  have hblock b : ((l.follow ns).block b).successors =
      (l.block b).successors ++ if b = l.current then ns else [] := by
    rw [Layout.block_follow h.current_lt]
    split
    · rfl
    · exact (List.append_nil _).symm
  constructor
  · exact hsize ▸ h.current_lt
  · exact hsize ▸ h.leads
  · exact hsize ▸ h.kept_lt
  · intro b n hn
    show 0 < n ∧ n < (l.follow ns).size
    rw [hsize]
    rw [hblock] at hn
    rcases List.mem_append.mp hn with hn | hn
    · exact h.successors hn
    · split at hn
      · exact h.leads (hns n hn)
      · cases hn
  · intro b
    show ((l.follow ns).block b).successors = (l.follow ns).added b
    rw [hblock, Layout.added_follow]
    exact congrArg (· ++ _) (h.added b)
  · intro t ht
    rcases Layout.mem_ended_follow ht with ht | ⟨rfl, hne⟩
    · exact h.isTerminator ht
    · exact isTerminator_of_length hne hlen

theorem goOn (h : Sound ⟨targets, kept, due, l⟩) (hr : r < l.size) :
    Sound ⟨targets, kept, due, l.goOn r⟩ :=
  { h with current_lt := hr }

theorem label {x : String} {d : Label} (h : Sound ⟨targets, kept, due, l⟩)
    (hd : ∀ n ∈ d.blocks, Leads ⟨targets, kept, due, l⟩ n) :
    Sound ⟨targets, kept, due, { l with labels := (x, d) :: l.labels }⟩ :=
  { h with
    leads := by
      rintro n (hn | ⟨y, d', hy, hn⟩)
      · exact h.leads (.inl hn)
      · have hy : ({ l with labels := (x, d) :: l.labels } : Layout).label? y = some d' := hy
        rw [Layout.label?_cons] at hy
        split at hy
        · cases hy
          exact h.leads (hd n hn)
        · exact h.leads (.inr ⟨y, d', hy, hn⟩) }

theorem forget (h : Sound ⟨targets, kept, due, l⟩) (htargets : targets' ⊆ targets)
    (hkept : kept' ⊆ kept) : Sound ⟨targets', kept', due', l⟩ :=
  { h with
    leads := fun hn => h.leads (hn.imp_left fun hn => htargets hn)
    kept_lt := fun hb => h.kept_lt (hkept hb) }

end Site.Sound

/-- A step keeps to blocks that are made already. -/
theorem Site.Step.sound (hstep : S.Step S') (h : S.Sound) : S'.Sound := by
  cases hstep with
  | emit => exact h.emit
  | fresh => exact h.fresh
  | turn hlen hns =>
    have h' := (h.follow hlen hns).goOn (Layout.size_follow ▸ h.kept_lt List.mem_cons_self)
    exact h'.forget (List.Subset.refl _) (List.subset_cons_self _ _)
  | leap hlen hns =>
    have h' := (h.follow hlen hns).fresh
    refine (h'.goOn ?_).forget (List.subset_cons_self _ _) (List.subset_cons_self _ _)
    rw [Layout.size_fresh]
    exact Nat.lt_succ_self _
  | @land targets kept due l x d hd =>
    have hlead due : Site.Leads ⟨targets, kept, due, l⟩ d.goto :=
      .inr ⟨x, d, hd, List.mem_cons_self⟩
    have h' : Site.Sound ⟨targets, kept, due, l.jump d.goto⟩ :=
      (h.forget (List.Subset.refl _) (List.Subset.refl _)).follow (Nat.le_succ 1) fun n hn =>
        List.mem_singleton.mp hn ▸ hlead due
    refine h'.goOn ?_
    rw [Layout.jump, Layout.size_follow]
    exact (h.leads (hlead _)).2
  | record hx hr =>
    refine (h.forget (List.Subset.refl _) (List.subset_cons_self _ _)).label fun n hn => .inl ?_
    obtain rfl := List.mem_singleton.mp hn
    exact hr
  | @bind targets kept due l x d brk cont hd hbrk hcont =>
    have hold {n} (hn : n ∈ d.blocks) : Site.Leads ⟨targets, kept, due, l⟩ n :=
      .inr ⟨x, d, hd, hn⟩
    refine h.label fun n hn => ?_
    rcases List.mem_cons.mp hn with rfl | hn
    · exact hold List.mem_cons_self
    rcases List.mem_cons.mp hn with rfl | hn
    · exact .inl hbrk
    cases cont with
    | none => exact hold (List.mem_cons_of_mem _ (List.mem_append_right _ hn))
    | some again => exact .inl (hcont hn)
  | forget htargets hkept _ => exact h.forget htargets hkept.subset

/-- A step adds nodes to blocks and takes none away. -/
theorem Site.Step.nodes_prefix (hstep : S.Step S') (h : S.Sound) (b : Nat) :
    (S.layout.block b).nodes <+: (S'.layout.block b).nodes := by
  have hfollow {l : Layout} {ns : List Nat} (hl : l.current < l.size) :
      (l.block b).nodes <+: ((l.follow ns).block b).nodes := by
    rw [Layout.block_follow hl]
    split <;> exact List.prefix_rfl
  cases hstep with
  | emit =>
    rw [Layout.block_emit h.current_lt]
    split
    · exact List.prefix_append _ _
    · exact List.prefix_rfl
  | turn | land => exact hfollow h.current_lt
  | @leap targets kept ns due l =>
    show (l.block b).nodes <+: ((l.follow ns).fresh.block b).nodes
    rw [Layout.block_fresh]
    exact hfollow h.current_lt
  | fresh => exact Layout.block_fresh ▸ List.prefix_rfl
  | record | bind | forget => exact List.prefix_rfl

theorem Site.Reaches.sound (hsteps : S.Reaches S') (h : S.Sound) : S'.Sound := by
  induction hsteps with
  | refl => exact h
  | tail _ hstep ih => exact hstep.sound ih

theorem Site.Reaches.nodes_prefix (hsteps : S.Reaches S') (h : S.Sound) (b : Nat) :
    (S.layout.block b).nodes <+: (S'.layout.block b).nodes := by
  induction hsteps with
  | refl => exact List.prefix_rfl
  | tail hsteps hstep ih => exact ih.trans (hstep.nodes_prefix (sound hsteps h) b)

/-! ## Blocks that are ended once -/

/-- The current block and those that are kept are open, and no block was ended twice. -/
structure Site.Single (S : Site) : Prop where
  ready : Stage.Ready ⟨fun _ => none, S.kept, S.due, S.layout⟩
  nodup : (S.layout.ended.map (·.1)).Nodup

/-- A stage stays ready where blocks are the same and fewer of them wait. -/
theorem Stage.Ready.of_waits {known : String → Option Label}
    (h : Stage.Ready ⟨known, kept, due, l⟩) (hblocks : l'.blocks = l.blocks)
    (hcurrent : l'.current = l.current) (hgoto : ∀ x, l'.goto? x = l.goto? x)
    (hkept : kept'.Subperm kept) (hdue : due'.Subperm due) :
    Stage.Ready ⟨fun _ => none, kept', due', l'⟩ := by
  have hwaits {b} (hb : Stage.Waits ⟨fun _ => none, kept', due', l'⟩ b) :
      Stage.Waits ⟨known, kept, due, l⟩ b := by
    rcases hb with hb | ⟨x, hx, hb⟩
    · exact .inl (hkept.subset hb)
    · exact .inr ⟨x, hdue.subset hx, (hgoto x).symm.trans hb⟩
  have hblock b : l'.block b = l.block b := by rw [Layout.block, Layout.block, hblocks]
  have hsize : l'.size = l.size := congrArg Array.size hblocks
  have hnodup {α : Type} {xs ys : List α} (h : ys.Nodup) (hsub : xs.Subperm ys) : xs.Nodup := by
    obtain ⟨zs, hperm, hzs⟩ := hsub
    exact hperm.nodup_iff.mp (h.sublist hzs)
  exact {
    current_lt := by
      show l'.current < l'.size
      rw [hcurrent, hsize]
      exact h.current_lt
    unended := by
      show (l'.block l'.current).successors = []
      rw [hcurrent, hblock]
      exact h.unended
    lt := fun hb => hsize ▸ h.lt (hwaits hb)
    ne_current := fun hb => hcurrent ▸ h.ne_current (hwaits hb)
    empty := fun hb => (hblock _).trans (h.empty (hwaits hb))
    kept_nodup := hnodup h.kept_nodup hkept
    due_nodup := hnodup h.due_nodup hdue
    kept_ne_goto := fun hb x hx hxb =>
      h.kept_ne_goto (hkept.subset hb) (hdue.subset hx) ((hgoto x).symm.trans hxb)
    goto_inj := fun {x} hx {y} hy b hxb hyb =>
      h.goto_inj (hdue.subset hx) (hdue.subset hy) ((hgoto x).symm.trans hxb)
        ((hgoto y).symm.trans hyb)
    known_eq := fun hx => absurd hx.symm (Option.some_ne_none _)
    known_not_due := fun hx => absurd hx.symm (Option.some_ne_none _) }

/-- A block without successors was not ended so far. -/
theorem Site.Sound.notMem_ended {b : Nat} (h : S.Sound)
    (hopen : (S.layout.block b).successors = []) : b ∉ S.layout.ended.map (·.1) := by
  intro hb
  obtain ⟨⟨b', ns⟩, ht, rfl⟩ := List.mem_map.mp hb
  rw [h.added, Layout.added, List.flatMap_eq_nil_iff] at hopen
  have hnil : ns = [] := hopen (b', ns) (List.mem_filter.mpr ⟨List.mem_reverse.mpr ht, by simp⟩)
  rcases h.isTerminator ht with ⟨n, hns⟩ | ⟨yes, no, hns⟩
  · exact List.cons_ne_nil _ _ (hns.symm.trans hnil)
  · exact List.cons_ne_nil _ _ (hns.symm.trans hnil)

/-- An open block is ended for the first time. -/
theorem Site.Single.nodup_follow (h : Site.Single ⟨targets, kept, due, l⟩)
    (hsound : Site.Sound ⟨targets, kept, due, l⟩) (ns : List Nat) :
    ((l.follow ns).ended.map (·.1)).Nodup := by
  have hended : (l.follow ns).ended = if ns = [] then l.ended else (l.current, ns) :: l.ended := rfl
  rw [hended]
  split
  · exact h.nodup
  · exact List.nodup_cons.mpr ⟨hsound.notMem_ended h.ready.unended, h.nodup⟩

/-- A step ends the current block only, which is open, and goes on in a block that is. -/
theorem Site.Step.single (hstep : S.Step S') (hsound : S.Sound) (h : S.Single) : S'.Single := by
  cases hstep with
  | emit => exact ⟨(Moved.emit h.ready).1, h.nodup⟩
  | fresh => exact ⟨(Moved.fresh h.ready).1, h.nodup⟩
  | turn => exact ⟨(Moved.turn (.refl _) h.ready).1, h.nodup_follow hsound _⟩
  | leap => exact ⟨(Moved.follow_goOnFresh _ h.ready).1, h.nodup_follow hsound _⟩
  | @land _ _ _ _ _ d hd =>
    exact ⟨(Moved.land hd h.ready).1.of_waits rfl rfl (fun _ => rfl) (.refl _) (.refl _),
      h.nodup_follow hsound [d.goto]⟩
  | record hx => exact ⟨(Moved.record hx h.ready).1, h.nodup⟩
  | @bind targets kept due l x d brk cont hd =>
    refine ⟨h.ready.of_waits rfl rfl (fun y => ?_) (.refl _) (.refl _), h.nodup⟩
    rw [Layout.goto?, Layout.label?_cons]
    split
    next hy => rw [hy, Layout.goto?_eq hd, Option.map_some]
    next => rfl
  | forget _ hkept hdue => exact ⟨h.ready.of_waits rfl rfl (fun _ => rfl) hkept hdue, h.nodup⟩

theorem Site.Reaches.single (hsteps : S.Reaches S') (hsound : S.Sound) (h : S.Single) : S'.Single := by
  induction hsteps with
  | refl => exact h
  | tail hsteps hstep ih => exact hstep.single (sound hsteps hsound) ih

/-! ## Bodies -/

/-- The blocks of a body that are ended and what was added to each, in the order in which this was
done. -/
def endings (body : Go.Block) : List (Nat × List Nat) := (layoutOf body).ended.reverse

/-- The site where a body is started. -/
def Site.start (labels : List String) : Site := ⟨[], [], labels, .start⟩

/-- The site where a body is finished. -/
def Site.finish (body : Go.Block) : Site := ⟨[], [], [], layoutOf body⟩

theorem reaches_finish (body : Go.Block) :
    (Site.start (labelsOfAll body.stmts)).Reaches (Site.finish body) := by
  have h := stepwiseAll body.stmts .none [] [] [] .start (List.Subset.refl _)
  rwa [List.append_nil] at h

theorem block_start (b : Nat) : Layout.start.block b = ⟨[], []⟩ := by
  cases b <;> rfl

theorem sound_start (labels : List String) : (Site.start labels).Sound := by
  constructor
  · exact Nat.zero_lt_one
  · rintro n (hn | ⟨x, d, hd, -⟩)
    · cases hn
    · cases hd
  · nofun
  · intro b n (hn : n ∈ (Layout.start.block b).successors)
    rw [block_start] at hn
    cases hn
  · exact fun b => congrArg Block.successors (block_start b)
  · nofun

theorem sound_finish (body : Go.Block) : (Site.finish body).Sound :=
  (reaches_finish body).sound (sound_start _)

theorem length_blocksOf (body : Go.Block) : (blocksOf body).length = (layoutOf body).size :=
  Array.length_toList

theorem flowAll_of_isSimple (j : Jumps) {ss : List Stmt} (rest : List Stmt)
    (h : ss.all isSimple = true) (l : Layout) :
    flowAll j (ss ++ rest) l = flowAll j rest ((ss.map Stmt.key).foldl Layout.emit l) := by
  induction ss generalizing l with
  | nil => rfl
  | cons s ss ih =>
    obtain ⟨hs, hss⟩ := Bool.and_eq_true_iff.mp (List.all_cons ▸ h)
    rw [List.cons_append, flowAll, flow_of_isSimple hs, ih hss]
    rfl

theorem nodes_emits {ks : List Key} (h : l.current < l.size) :
    ((ks.foldl Layout.emit l).block l.current).nodes = (l.block l.current).nodes ++ ks := by
  induction ks generalizing l with
  | nil => exact (List.append_nil _).symm
  | cons k ks ih =>
    have hk : l.current < (l.emit k).size := by rwa [Layout.size_emit]
    refine (ih (l := l.emit k) hk).trans ?_
    rw [Layout.block_emit h]
    simp [Layout.emit]

/-- The statements that a body starts with are evaluated in block 0. -/
theorem prefix_entry {body : Go.Block} {ss rest : List Stmt} (hbody : body.stmts = ss ++ rest)
    (hss : ss.all isSimple = true) : ss.map Stmt.key <+: (blockAt (blocksOf body) 0).nodes := by
  have hsound := (Site.Reaches.emits (ss.map Stmt.key)).sound (sound_start (labelsOfAll rest ++ []))
  have hsteps := stepwiseAll rest .none [] [] []
    ((ss.map Stmt.key).foldl Layout.emit .start) (List.Subset.refl _)
  have hnodes := hsteps.nodes_prefix hsound 0
  have hstart : (((ss.map Stmt.key).foldl Layout.emit .start).block 0).nodes = ss.map Stmt.key :=
    nodes_emits (l := .start) Nat.zero_lt_one
  simp only [← flowAll_of_isSimple _ _ hss, ← hbody] at hnodes
  rwa [hstart] at hnodes

/-- The successors of a block are blocks, and not the entry. -/
theorem successor_lt {body : Go.Block} {b : Block} (hb : b ∈ blocksOf body) {n : Nat}
    (hn : n ∈ b.successors) : 0 < n ∧ n < (blocksOf body).length := by
  obtain ⟨i, hi, rfl⟩ := List.getElem_of_mem hb
  rw [length_blocksOf]
  refine (sound_finish body).successors (b := i) ?_
  show n ∈ (blockAt (blocksOf body) i).successors
  rwa [blockAt, List.getD_eq_getElem?_getD, List.getElem?_eq_getElem hi]

/-- The successors of a block are what was added to it. -/
theorem successors_eq (body : Go.Block) (b : Nat) :
    (blockAt (blocksOf body) b).successors =
      ((endings body).filter (·.1 = b)).flatMap (·.2) :=
  (sound_finish body).added b

/-- No block is ended twice, where labels are declared once. -/
theorem nodup_endings {body : Go.Block} (h : (labelsOfAll body.stmts).Nodup) :
    ((endings body).map (·.1)).Nodup := by
  have hsingle : (Site.finish body).Single :=
    (reaches_finish body).single (sound_start _) ⟨ready_start h, .nil⟩
  rw [endings, List.map_reverse, List.nodup_reverse]
  exact hsingle.nodup

/-- Where labels are declared once, what is added to a block is added at one time. -/
theorem successors_eq_nil_or {body : Go.Block} (h : (labelsOfAll body.stmts).Nodup) (b : Nat) :
    (blockAt (blocksOf body) b).successors = [] ∨
      (b, (blockAt (blocksOf body) b).successors) ∈ endings body := by
  have hnodup : (((endings body).filter (·.1 = b)).map (·.1)).Nodup :=
    (nodup_endings h).sublist (List.filter_sublist.map _)
  have hmem {t} (ht : t ∈ (endings body).filter (·.1 = b)) : t ∈ endings body ∧ t.1 = b := by
    simpa using ht
  rw [successors_eq]
  cases hadded : (endings body).filter (·.1 = b) with
  | nil => exact .inl rfl
  | cons t ts =>
    rw [hadded] at hnodup hmem
    obtain rfl : ts = [] := by
      refine List.eq_nil_iff_forall_not_mem.mpr fun t' ht' => ?_
      refine (List.nodup_cons.mp hnodup).1 (List.mem_map.mpr ⟨t', ht', ?_⟩)
      exact (hmem (List.mem_cons_of_mem _ ht')).2.trans (hmem List.mem_cons_self).2.symm
    obtain ⟨ht, rfl⟩ := hmem List.mem_cons_self
    exact .inr (by rwa [List.flatMap_singleton])

/-- The blocks of every body are sound. Block 0 is the entry: it is there, what the body starts with is
evaluated in it, and no block leads back to it. All successors are blocks of the body, and the
successors of a block are what was added to it, by jumps and choices. Where the body declares each label
once, no block was ended before when it is ended, so that the graph lists for each block no successor, or
those of one jump or of one choice. -/
theorem blocksOf_sound (body : Go.Block) (scope : IdScope) :
    (0 < (blocksOf body).length ∧
      (∀ ss rest, body.stmts = ss ++ rest → ss.all isSimple = true →
        ss.map Stmt.key <+: (blockAt (blocksOf body) 0).nodes)) ∧
    (∀ b ∈ blocksOf body, ∀ n ∈ b.successors, 0 < n ∧ n < (blocksOf body).length) ∧
    ((∀ t ∈ endings body, IsTerminator t.2) ∧
      ∀ b, (blockAt (blocksOf body) b).successors =
        ((endings body).filter (·.1 = b)).flatMap (·.2)) ∧
    ((labelsOfAll body.stmts).Nodup →
      ((endings body).map (·.1)).Nodup ∧
      ∀ (i : Nat) (b : GraphBlock), (Graph.ofBody body scope).blocks[i]? = some b →
        b.successors = [] ∨
          ∃ ns, (i, ns) ∈ endings body ∧ IsTerminator ns ∧ b.successors = ns.map Int.ofNat) := by
  refine ⟨⟨?_, fun ss rest => prefix_entry⟩, fun b hb n hn => successor_lt hb hn,
    ⟨fun t ht => ?_, successors_eq body⟩, fun h => ⟨nodup_endings h, fun i b hb => ?_⟩⟩
  · rw [length_blocksOf]
    exact Nat.lt_of_le_of_lt (Nat.zero_le _) (sound_finish body).current_lt
  · exact (sound_finish body).isTerminator (List.mem_reverse.mp ht)
  · rw [Graph.ofBody, Graph.ofBlocks, List.getElem?_map] at hb
    obtain ⟨b₀, hb₀, rfl⟩ := Option.map_eq_some_iff.mp hb
    have hblock : blockAt (blocksOf body) i = b₀ := by
      rw [blockAt, List.getD_eq_getElem?_getD, hb₀, Option.getD_some]
    rcases hblock ▸ successors_eq_nil_or h i with hnil | hmem
    · exact .inl (congrArg (List.map _) hnil)
    · exact .inr ⟨_, hmem, (sound_finish body).isTerminator (List.mem_reverse.mp hmem), rfl⟩

/-- A label that is declared three times ends its block twice. -/
example :
    let label (pos : Pos) : Ident := ⟨pos, "L", none⟩
    endings ⟨1, [.labeled (label 2) 3 (.labeled (label 5) 6 (.labeled (label 8) 9 (.empty 11 true)))], 12⟩ =
      [(0, [1]), (1, [1]), (1, [1])] := by
  decide

/-- The body `{ if a { goto L }; L: for b { continue L } }`. -/
def jumpingBody : Go.Block :=
  let name (pos : Pos) (text : String) : Ident := ⟨pos, text, none⟩
  ⟨1, [.ite 3 none (.ident (name 6 "a")) ⟨8, [.branch 10 .gotoWord (some (name 15 "L"))], 17⟩ none,
    .labeled (name 20 "L") 21 (.forLoop 23 none (some (.ident (name 27 "b"))) none
      ⟨29, [.branch 31 .continueWord (some (name 40 "L"))], 42⟩)], 44⟩

/-- The block of label `L` is made for the `goto` and ended as the head of the loop is laid out. -/
theorem blocksOf_sound_jumpingBody :
    (labelsOfAll jumpingBody.stmts).Nodup ∧
      endings jumpingBody = [(0, [1, 2]), (1, [3]), (4, [2]), (2, [3]), (3, [7]), (7, [5, 6]),
        (5, [7]), (8, [7])] ∧
      ((endings jumpingBody).map (·.1)).Nodup :=
  ⟨by decide, by decide, ((blocksOf_sound jumpingBody .empty).2.2.2 (by decide)).1⟩

end LosslessGo.Flow
