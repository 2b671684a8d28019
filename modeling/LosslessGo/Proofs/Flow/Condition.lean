import LosslessGo.Proofs.Flow.Pieces

/-!
# Conditions and their values

A condition is laid out in one block for each of its operands. Going on from block to block as the
operands turn out is what evaluating the condition from left to right comes to.

* `operands` lists the operands of a condition, and `evaluate` its value with the operands that decide
  on it.
* `places` are the blocks of the operands.
* `Visits` says which operands are passed on the way from one block to another.
* `Layout.branch_visits` compares the two.
-/

namespace LosslessGo.Flow

open Go

/-! ## Values -/

/-- The operands of a condition from left to right. -/
def operands : Expr → List Expr
  | .binary x _ .logicalAnd y => operands x ++ operands y
  | .binary x _ .logicalOr y => operands x ++ operands y
  | .unary _ .not x => operands x
  | .paren _ x _ => operands x
  | x => [x]

/-- The value of a condition whose operands are numbered from `i` on and have the values `v`, and the
operands that are evaluated in order. The right side of an operator is evaluated where the left one does
not decide. -/
def evaluate (v : Nat → Bool) : Expr → Nat → Bool × List Nat
  | .binary x _ .logicalAnd y, i =>
    let (a, is) := evaluate v x i
    let (b, js) := evaluate v y (i + (operands x).length)
    if a then (b, is ++ js) else (false, is)
  | .binary x _ .logicalOr y, i =>
    let (a, is) := evaluate v x i
    let (b, js) := evaluate v y (i + (operands x).length)
    if a then (true, is) else (b, is ++ js)
  | .unary _ .not x, i =>
    let (b, is) := evaluate v x i
    (!b, is)
  | .paren _ x _, i => evaluate v x i
  | _, i => (v i, [i])

/-! ## Blocks of operands -/

/-- The blocks of the operands, where the first one goes to block `c` and others are made from number `n`
on. -/
def places : Expr → Nat → Nat → List Nat
  | .binary x _ .logicalAnd y, c, n => places x c (n + 1) ++ places y n (n + (operands x).length)
  | .binary x _ .logicalOr y, c, n => places x c (n + 1) ++ places y n (n + (operands x).length)
  | .unary _ .not x, c, n => places x c n
  | .paren _ x _, c, n => places x c n
  | _, c, _ => [c]

/-- From one block on operands are passed, each from its home to the first successor where it is true and
to the second where it is false, until another block is arrived at. -/
inductive Visits (bs : List Block) (home : Nat → Nat → Prop) (v : Nat → Bool) :
    Nat → List Nat → Nat → Prop where
  | arrive {c : Nat} : Visits bs home v c [] c
  | operand {c i yes no d : Nat} {is : List Nat} : home i c →
    (blockAt bs c).successors = [yes, no] → Visits bs home v (if v i then yes else no) is d →
    Visits bs home v c (i :: is) d

variable {bs : List Block} {home : Nat → Nat → Prop} {v : Nat → Bool} {e : Expr} {c d n i : Nat}
  {is : List Nat}

theorem Visits.trans {d' : Nat} {is' : List Nat} (h : Visits bs home v c is d)
    (h' : Visits bs home v d is' d') : Visits bs home v c (is ++ is') d' := by
  induction h with
  | arrive => exact h'
  | operand hi hs _ ih => exact .operand hi hs (ih h')

/-- One way only is gone to a block that is no home. -/
theorem Visits.unique {d' : Nat} {is' : List Nat} (hhome : ∀ {i j c}, home i c → home j c → i = j)
    (h : Visits bs home v c is d) (hd : ∀ i, ¬home i d) (h' : Visits bs home v c is' d')
    (hd' : ∀ i, ¬home i d') : is = is' ∧ d = d' := by
  induction h generalizing is' with
  | arrive =>
    cases h' with
    | arrive => exact ⟨rfl, rfl⟩
    | operand hi => exact absurd hi (hd _)
  | operand hi hs _ ih =>
    cases h' with
    | arrive => exact absurd hi (hd' _)
    | operand hj hs' h' =>
      obtain rfl := hhome hi hj
      rw [hs] at hs'
      cases hs'
      obtain ⟨his, hdd'⟩ := ih hd h'
      exact ⟨congrArg _ his, hdd'⟩

theorem length_places (e : Expr) (c n : Nat) : (places e c n).length = (operands e).length := by
  fun_induction places e c n with
  | case1 x _ y c n ihx ihy | case2 x _ y c n ihx ihy =>
    rw [operands, List.length_append, List.length_append, ihx, ihy]
  | case3 _ x c n ih => rwa [operands]
  | case4 _ x _ c n ih => rwa [operands]
  | case5 x c n hand hor hnot hparen => rw [operands.eq_5 x hand hor hnot hparen]; rfl

theorem length_operands_pos (e : Expr) : 0 < (operands e).length := by
  fun_induction operands e with
  | case1 x _ y _ hy | case2 x _ y _ hy =>
    rw [List.length_append]
    omega
  | case3 _ x hx => exact hx
  | case4 _ x _ hx => exact hx
  | case5 => exact Nat.zero_lt_one

/-- The first operand goes to the block that is reached, the others to blocks that are made. -/
theorem eq_or_of_mem_places {b : Nat} (h : b ∈ places e c n) :
    b = c ∨ n ≤ b ∧ b + 1 < n + (operands e).length := by
  fun_induction places e c n with
  | case1 x _ y c n ihx ihy | case2 x _ y c n ihx ihy =>
    have hx := length_operands_pos x
    have hy := length_operands_pos y
    rw [operands, List.length_append]
    rcases List.mem_append.mp h with h | h
    · have := ihx h
      omega
    · have := ihy h
      omega
  | case3 _ x c n ih => exact ih h
  | case4 _ x _ c n ih => exact ih h
  | case5 => exact .inl (List.mem_singleton.mp h)

/-- The blocks of the operands on the left of an operator are others than those on its right. -/
theorem disjoint_places {x y : Expr} (h : c < n) :
    (places x c (n + 1)).Disjoint (places y n (n + (operands x).length)) := by
  intro b hx hy
  have hx := eq_or_of_mem_places hx
  have hy := eq_or_of_mem_places hy
  omega

theorem nodup_places (h : c < n) : (places e c n).Nodup := by
  fun_induction places e c n with
  | case1 x _ y c n ihx ihy | case2 x _ y c n ihx ihy =>
    have hpos := length_operands_pos x
    exact (ihx (by omega)).append (ihy (by omega)) (disjoint_places h)
  | case3 _ x c n ih => exact ih h
  | case4 _ x _ c n ih => exact ih h
  | case5 => exact List.nodup_singleton _

/-! ## Layouts of conditions -/

namespace Layout

variable {l : Layout} {yes no : Nat}

@[simp] theorem block_goOn {b : Nat} : (l.goOn b).block n = l.block n := rfl

/-- The block that is made next is empty so far. -/
@[simp] theorem block_size : l.block l.size = ⟨[], []⟩ := by
  simp [block_eq, size]

theorem size_branch (l : Layout) (e : Expr) (yes no : Nat) :
    (l.branch e yes no).size + 1 = l.size + (operands e).length := by
  fun_induction Layout.branch l e yes no with
  | case1 l x _ y yes no ihx ihy | case2 l x _ y yes no ihx ihy =>
    rw [size_goOn] at ihy
    rw [size_fresh] at ihx
    rw [operands, List.length_append]
    omega
  | case3 l _ x yes no ih => exact ih
  | case4 l _ x _ yes no ih => exact ih
  | case5 l x yes no hand hor hnot hparen =>
    rw [operands.eq_5 x hand hor hnot hparen, fork, size_follow, size_emit, List.length_singleton]

/-- The left side of an operator ends with a block for the right side. -/
theorem size_goOn_branch_fresh (l : Layout) (e : Expr) (yes no b : Nat) :
    ((l.fresh.branch e yes no).goOn b).size = l.size + (operands e).length := by
  have h := size_branch l.fresh e yes no
  rw [size_fresh] at h
  rw [size_goOn]
  omega

/-- An operand is evaluated at the end of the current block, which is ended by a choice. -/
theorem block_fork_emit {b : Nat} {k : Key} (h : l.current < l.size) :
    ((l.emit k).fork yes no).block b =
      if b = l.current then ⟨(l.block b).nodes ++ [k], (l.block b).successors ++ [yes, no]⟩
      else l.block b := by
  have hcur : (l.emit k).current = l.current := rfl
  rw [fork, block_follow (by rwa [size_emit, hcur]), hcur, block_emit h]
  split <;> rfl

/-- A condition leaves all blocks but those of its operands. -/
theorem block_branch {b : Nat} (h : l.current < l.size) (hb : b ∉ places e l.current l.size) :
    (l.branch e yes no).block b = l.block b := by
  fun_induction Layout.branch l e yes no with
  | case1 l x _ y yes no ihx ihy | case2 l x _ y yes no ihx ihy =>
    rw [places, List.mem_append, not_or] at hb
    have hpos := length_operands_pos x
    rw [size_goOn_branch_fresh] at ihy
    rw [size_fresh, block_fresh] at ihx
    exact (ihy (Nat.lt_add_of_pos_right hpos) hb.2).trans (ihx (Nat.lt_succ_of_lt h) hb.1)
  | case3 l _ x yes no ih => exact ih h hb
  | case4 l _ x _ yes no ih => exact ih h hb
  | case5 l x yes no hand hor hnot hparen =>
    rw [places.eq_5 _ _ _ hand hor hnot hparen, List.mem_singleton] at hb
    rw [block_fork_emit h, if_neg hb]

/-- The right side of an operator leaves the blocks of the left side. -/
theorem block_branch_left {x y : Expr} {yes' no' b : Nat} (h : l.current < l.size)
    (hb : b ∈ places x l.current (l.size + 1)) :
    (((l.fresh.branch x yes no).goOn l.size).branch y yes' no').block b =
      (l.fresh.branch x yes no).block b := by
  have hpos := length_operands_pos x
  refine block_branch ?_ ?_ <;> rw [size_goOn_branch_fresh]
  · exact Nat.lt_add_of_pos_right hpos
  · exact fun hy => disjoint_places h hb hy

/-- The left side of an operator leaves the blocks of the right side. -/
theorem block_branch_right {x y : Expr} {b : Nat} (h : l.current < l.size)
    (hb : b ∈ places y l.size (l.size + (operands x).length)) :
    (l.fresh.branch x yes no).block b = l.block b := by
  rw [block_branch, block_fresh]
  · rw [size_fresh]
    exact Nat.lt_succ_of_lt h
  · rw [size_fresh]
    exact fun hx => disjoint_places h hx hb

/-- Every operand is evaluated at the end of its block. -/
theorem nodes_branch (h : l.current < l.size) :
    ∀ p ∈ (places e l.current l.size).zip (operands e),
      ((l.branch e yes no).block p.1).nodes = (l.block p.1).nodes ++ [p.2.key] := by
  fun_induction Layout.branch l e yes no with
  | case1 l x _ y yes no ihx ihy | case2 l x _ y yes no ihx ihy =>
    have hpos := length_operands_pos x
    rw [places, operands, List.zip_append (length_places x _ _)]
    rw [size_goOn_branch_fresh] at ihy
    rw [size_fresh] at ihx
    rintro ⟨b, z⟩ hp
    rcases List.mem_append.mp hp with hp | hp
    · have hx := ihx (Nat.lt_succ_of_lt h) _ hp
      rw [block_fresh] at hx
      rwa [block_branch_left h (List.of_mem_zip hp).1]
    · have hy := ihy (Nat.lt_add_of_pos_right hpos) _ hp
      rwa [block_goOn, block_branch_right h (List.of_mem_zip hp).1] at hy
  | case3 l _ x yes no ih => exact ih h
  | case4 l _ x _ yes no ih => exact ih h
  | case5 l x yes no hand hor hnot hparen =>
    rw [places.eq_5 _ _ _ hand hor hnot hparen, operands.eq_5 x hand hor hnot hparen]
    rintro p hp
    obtain rfl := List.mem_singleton.mp hp
    rw [block_fork_emit h, if_pos rfl]

/-- The block that is made for the right side of an operator is empty when it is gone on in. -/
theorem unended_goOn_branch_fresh (h : l.current < l.size) :
    (((l.fresh.branch e yes no).goOn l.size).block l.size).successors = [] := by
  rw [block_goOn, block_branch, block_fresh, block_size]
  · rw [size_fresh]
    exact Nat.lt_succ_of_lt h
  · intro hb
    have := eq_or_of_mem_places hb
    rw [size_fresh] at this
    have : l.fresh.current = l.current := rfl
    omega

/-- The operands that are evaluated are passed on the way to where the value leads. -/
theorem visits_branch (h : l.current < l.size) (hopen : (l.block l.current).successors = [])
    (hbs : ∀ b ∈ places e l.current l.size,
      (blockAt bs b).successors = ((l.branch e yes no).block b).successors)
    (hhome : ∀ k b, (places e l.current l.size)[k]? = some b → home (i + k) b) :
    Visits bs home v l.current (evaluate v e i).2 (if (evaluate v e i).1 then yes else no) := by
  fun_induction Layout.branch l e yes no generalizing i with
  | case1 l x _ y yes no ihx ihy | case2 l x _ y yes no ihx ihy =>
    have hpos := length_operands_pos x
    rw [size_goOn_branch_fresh] at ihy
    rw [size_fresh, block_fresh] at ihx
    rw [places] at hbs hhome
    have hx := ihx (i := i) (Nat.lt_succ_of_lt h) hopen
      (fun b hb => (hbs b (List.mem_append_left _ hb)).trans
        (congrArg Block.successors (block_branch_left h hb)))
      fun k b hk => by
        obtain ⟨hlt, -⟩ := List.getElem?_eq_some_iff.mp hk
        exact hhome k b ((List.getElem?_append_left hlt).trans hk)
    have hy := ihy (i := i + (operands x).length) (Nat.lt_add_of_pos_right hpos)
      (unended_goOn_branch_fresh h) (fun b hb => hbs b (List.mem_append_right _ hb))
      fun k b hk => by
        rw [Nat.add_assoc, ← length_places x l.current (l.size + 1)]
        refine hhome _ b ?_
        rwa [List.getElem?_append_right (Nat.le_add_right _ _), Nat.add_sub_cancel_left]
    -- The right side is evaluated where the left one does not decide.
    rw [evaluate]
    rcases hv : evaluate v x i with ⟨_ | _, is⟩ <;> rw [hv] at hx <;>
      first | exact hx | exact hx.trans hy
  | case3 l _ x yes no ih =>
    have hx := ih h hopen hbs hhome
    rw [evaluate]
    rcases hv : evaluate v x i with ⟨_ | _, is⟩ <;> rw [hv] at hx <;> exact hx
  | case4 l _ x _ yes no ih => exact ih h hopen hbs hhome
  | case5 l x yes no hand hor hnot hparen =>
    rw [places.eq_5 _ _ _ hand hor hnot hparen] at hbs hhome
    rw [evaluate.eq_5 _ _ _ hand hor hnot hparen]
    refine .operand (hhome 0 _ rfl) ?_ .arrive
    rw [hbs _ (List.mem_singleton_self _), block_fork_emit h, if_pos rfl, hopen]
    rfl

/-- The blocks that a condition leads to are not those of its operands. -/
theorem notMem_places {b : Nat} (hb : b < l.size) (hne : b ≠ l.current) :
    b ∉ places e l.current l.size := by
  intro hmem
  have := eq_or_of_mem_places hmem
  omega

/-- A condition that starts in a block without successors has a block for each of its operands, where
the operand is evaluated last, and changes no other block. The operands that are passed on the way out of
these blocks are those that evaluating the condition from left to right evaluates, in this order, and the
way leads to `yes` where the condition is true and to `no` where it is false. -/
theorem branch_visits (l : Layout) (e : Expr) (yes no : Nat) (hcurrent : l.current < l.size)
    (hopen : (l.block l.current).successors = []) (hyes : yes < l.size) (hno : no < l.size)
    (hyes' : yes ≠ l.current) (hno' : no ≠ l.current) :
    (places e l.current l.size).length = (operands e).length ∧
      (places e l.current l.size).Nodup ∧
      (∀ p ∈ (places e l.current l.size).zip (operands e),
        ((l.branch e yes no).block p.1).nodes = (l.block p.1).nodes ++ [p.2.key]) ∧
      (∀ b, b ∉ places e l.current l.size → (l.branch e yes no).block b = l.block b) ∧
      ∀ (v : Nat → Bool) (is : List Nat) (d : Nat),
        Visits (l.branch e yes no).blocks.toList
            (fun i b => (places e l.current l.size)[i]? = some b) v l.current is d ∧
          d ∉ places e l.current l.size ↔
        is = (evaluate v e 0).2 ∧ d = if (evaluate v e 0).1 then yes else no := by
  have hnodup : (places e l.current l.size).Nodup := nodup_places hcurrent
  have htarget (b : Bool) : (if b then yes else no) ∉ places e l.current l.size := by
    cases b
    · exact notMem_places hno hno'
    · exact notMem_places hyes hyes'
  refine ⟨length_places e _ _, hnodup, nodes_branch hcurrent, fun b => block_branch hcurrent,
    fun v is d => ?_⟩
  have hvisits : Visits (l.branch e yes no).blocks.toList
      (fun i b => (places e l.current l.size)[i]? = some b) v l.current (evaluate v e 0).2
      (if (evaluate v e 0).1 then yes else no) :=
    visits_branch hcurrent hopen (fun _ _ => rfl) fun k b hk => by rwa [Nat.zero_add]
  constructor
  · rintro ⟨h, hd⟩
    refine h.unique (fun {i j b} hi hj => ?_) (fun i hi => hd (List.mem_of_getElem? hi)) hvisits
      fun i hi => htarget _ (List.mem_of_getElem? hi)
    obtain ⟨hlt, -⟩ := List.getElem?_eq_some_iff.mp hi
    exact (List.getElem?_inj hlt hnodup).mp (hi.trans hj.symm)
  · rintro ⟨rfl, rfl⟩
    exact ⟨hvisits, htarget _⟩

/-- The condition `!(a || b) && (c || !d)`. -/
def mixedCondition : Expr :=
  let name (pos : Pos) (text : String) : Expr := .ident ⟨pos, text, none⟩
  .binary (.unary 10 .not (.paren 11 (.binary (name 12 "a") 14 .logicalOr (name 17 "b")) 18)) 20
    .logicalAnd (.paren 23 (.binary (name 24 "c") 26 .logicalOr (.unary 29 .not (name 30 "d"))) 31)

/-- The condition is false where only `d` is true, which takes all of its operands, and where `a` is
true, whatever the others are. -/
theorem branch_visits_mixedCondition :
    let l : Layout := Layout.start.fresh.fresh
    (l.current < l.size ∧ (l.block l.current).successors = [] ∧ 1 < l.size ∧ 2 < l.size) ∧
      places mixedCondition 0 3 = [0, 4, 3, 5] ∧
      Visits (l.branch mixedCondition 1 2).blocks.toList (fun i b => [0, 4, 3, 5][i]? = some b)
        (fun i => i = 3) 0 [0, 1, 2, 3] 2 ∧
      Visits (l.branch mixedCondition 1 2).blocks.toList (fun i b => [0, 4, 3, 5][i]? = some b)
        (fun _ => true) 0 [0] 2 := by
  intro l
  have h := branch_visits l mixedCondition 1 2 (by decide) (by decide) (by decide) (by decide)
    (by decide) (by decide)
  have hplaces : places mixedCondition l.current l.size = [0, 4, 3, 5] := by decide
  rw [hplaces] at h
  refine ⟨by decide, by decide, ((h.2.2.2.2 _ _ _).mpr ?_).1, ((h.2.2.2.2 _ _ _).mpr ?_).1⟩
  · decide
  · decide

end Layout

end LosslessGo.Flow
