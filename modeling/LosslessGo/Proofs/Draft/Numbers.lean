import LosslessGo.Proofs.Draft.Yields
import LosslessGo.Proofs.Tree.Fields
import LosslessGo.Proofs.Tree.Grows

/-!
# How nodes got their numbers

The history of a draft tells functions that were entered and left, and the nodes that got numbers. A
stretch of it in which all functions are left that were entered hands out numbers of one scope
(`Numbers`), the other ones are of scopes that are gone.

* `IdScope.assignAll`, `IdScopes.assignAll`: scopes after the numbers of such a stretch.
* `Tree.Numbered`: the nodes carry the numbers that they got.
* `Tree.Numbered.get?_eq`: the number of a key is that of the last node that got one under it.
-/

namespace LosslessGo

open Go (Key)
open LosslessGo.Flow (IdScope IdScopes)

/-- The events, the last one first, leave what they enter. Outside of the functions that they enter
nodes got numbers under the keys of `own`, the last one first. -/
inductive Numbers : List Event → List (NodeId × Key) → Prop where
  | nil : Numbers [] []
  | numbered {events : List Event} {own : List (NodeId × Key)} (i : NodeId) (key : Key) :
    Numbers events own → Numbers (.numbered i key :: events) ((i, key) :: own)
  | function {inside events : List Event} {below own : List (NodeId × Key)} :
    Numbers inside below → Numbers events own →
    Numbers (.left :: (inside ++ .entered :: events)) own

theorem Numbers.append {events events' : List Event} {own own' : List (NodeId × Key)}
    (h : Numbers events own) (h' : Numbers events' own') :
    Numbers (events' ++ events) (own' ++ own) := by
  induction h' with
  | nil => exact h
  | numbered i key _ ih => exact .numbered i key ih
  | function hinside _ _ ih =>
    rw [List.cons_append, List.append_assoc]
    exact .function hinside ih

/-! ## Scopes -/

namespace Flow

/-- The scope after numbers went to the given keys, to the last one first. -/
def IdScope.assignAll (s : IdScope) (own : List (NodeId × Key)) : IdScope :=
  own.foldr (fun e s => s.assign e.2) s

/-- The scopes after the innermost one handed out numbers. -/
def IdScopes.assignAll (s : IdScopes) (own : List (NodeId × Key)) : IdScopes :=
  own.foldr (fun e s => s.assign e.2) s

variable {own own' : List (NodeId × Key)}

@[simp] theorem IdScope.next_assign (s : IdScope) (key : Key) :
    (s.assign key).next = s.next + 1 := rfl

theorem IdScope.assignAll_append (s : IdScope) :
    s.assignAll (own' ++ own) = (s.assignAll own).assignAll own' := List.foldr_append

theorem IdScope.next_assignAll (s : IdScope) :
    (s.assignAll own).next = s.next + own.length := by
  induction own with
  | nil => rfl
  | cons e own ih =>
    show ((s.assignAll own).assign e.2).next = _
    rw [next_assign, ih, List.length_cons, Nat.add_assoc]

theorem IdScopes.assignAll_append (s : IdScopes) :
    s.assignAll (own' ++ own) = (s.assignAll own).assignAll own' := List.foldr_append

/-- Numbers go to the innermost function. -/
theorem IdScopes.assignAll_function (file : IdScope) (f : IdScope) (fs : List IdScope) :
    (IdScopes.mk file (f :: fs)).assignAll own = ⟨file, f.assignAll own :: fs⟩ := by
  induction own with
  | nil => rfl
  | cons e own ih =>
    show ((IdScopes.mk file (f :: fs)).assignAll own).assign e.2 = _
    rw [ih]
    rfl

theorem IdScopes.current_assignAll (s : IdScopes) :
    (s.assignAll own).current = s.current.assignAll own := by
  obtain ⟨file, functions⟩ := s
  cases functions with
  | cons f fs =>
    rw [assignAll_function]
    rfl
  | nil =>
    have hfile : (IdScopes.mk file []).assignAll own = ⟨file.assignAll own, []⟩ := by
      induction own with
      | nil => rfl
      | cons e own ih =>
        show ((IdScopes.mk file []).assignAll own).assign e.2 = _
        rw [ih]
        rfl
    rw [hfile]
    rfl

/-- A function that is left takes its numbers with it. -/
theorem IdScopes.leave_assignAll_enter (s : IdScopes) :
    (s.enter.assignAll own).leave = (some (IdScope.empty.assignAll own), s) := by
  show ((IdScopes.mk s.file (.empty :: s.functions)).assignAll own).leave = _
  rw [assignAll_function]
  rfl

end Flow

/-! ## Numbered nodes -/

theorem Node.flowId_insert (n : Node) (number : Nat) :
    ({ n with fields := n.fields.insert flowIdName (.int number) } : Node).flowId =
      some (number : Int) := by
  simp [flowId, field?, Fields.get?_insert]

/-- A node without the field has no number. -/
theorem Node.flowId_of_get? {n : Node} (h : n.fields.get? flowIdName = none) : n.flowId = none := by
  simp [flowId, field?, h]

namespace Tree

/-- The nodes carry the numbers that scope `s` handed out to them, to the last node first. -/
def Numbered (t : Tree) (s : IdScope) : List (NodeId × Key) → Prop
  | [] => True
  | e :: own =>
    (t.node e.1).flowId = some ((s.assignAll own).next : Int) ∧ t.Numbered s own

/-- The number of the last node that got one under a key, 0 where there is none. -/
def numberOf (t : Tree) (own : List (NodeId × Key)) (key : Key) : Int :=
  ((own.find? fun e => e.2 = key).bind fun e => (t.node e.1).flowId).getD 0

namespace Numbered

variable {t t' : Tree} {s : IdScope} {own own' : List (NodeId × Key)}

theorem append (h : t.Numbered s own) (h' : t.Numbered (s.assignAll own) own') :
    t.Numbered s (own' ++ own) := by
  induction own' with
  | nil => exact h
  | cons e own' ih =>
    obtain ⟨he, h'⟩ := h'
    refine ⟨?_, ih h'⟩
    show _ = some ((s.assignAll (own' ++ own)).next : Int)
    rw [IdScope.assignAll_append]
    exact he

theorem grows (h : t.Numbered s own) (hg : t.Grows t') (hown : ∀ e ∈ own, e.1 < t.size) :
    t'.Numbered s own := by
  induction own with
  | nil => trivial
  | cons e own ih =>
    refine ⟨?_, ih h.2 fun e' he' => hown e' (by simp [he'])⟩
    rw [hg.node_eq e.1 (hown e (by simp))]
    exact h.1

/-- A node's number counts the nodes that got numbers before. -/
theorem flowId_eq {before : List (NodeId × Key)} {e : NodeId × Key}
    (h : t.Numbered s (own' ++ e :: before)) :
    (t.node e.1).flowId = some ((s.next + before.length : Nat) : Int) := by
  induction own' with
  | nil =>
    rw [← IdScope.next_assignAll]
    exact h.1
  | cons e' own' ih => exact ih h.2

theorem flowId_ne_none {e : NodeId × Key} (h : t.Numbered s own) (he : e ∈ own) :
    (t.node e.1).flowId ≠ none := by
  obtain ⟨own', before, rfl⟩ := List.append_of_mem he
  rw [h.flowId_eq]
  nofun

/-- No two nodes got one number. -/
theorem flowId_inj {e e' : NodeId × Key} (h : t.Numbered s own) (he : e ∈ own) (he' : e' ∈ own)
    (heq : (t.node e.1).flowId = (t.node e'.1).flowId) : e = e' := by
  obtain ⟨a, b, rfl⟩ := List.append_of_mem he
  obtain ⟨a', b', hsplit⟩ := List.append_of_mem he'
  have h' : t.Numbered s (a' ++ e' :: b') := hsplit ▸ h
  rw [h.flowId_eq, h'.flowId_eq] at heq
  have hnumber := Int.ofNat.inj (Option.some.inj heq)
  have hlen := congrArg List.length hsplit
  simp only [List.length_append, List.length_cons] at hlen
  exact (List.cons.inj (List.append_inj_right hsplit (by omega))).1

/-- The number of a key is that of the last node that got one under it. -/
theorem get?_eq (h : t.Numbered .empty own) (key : Key) :
    ((((IdScope.empty.assignAll own).get? key).getD 0 : Nat) : Int) = t.numberOf own key := by
  induction own with
  | nil => rfl
  | cons e own ih =>
    show (((((IdScope.empty.assignAll own).assign e.2).get? key).getD 0 : Nat) : Int) = _
    rw [IdScope.get?, IdScope.assign, List.lookup_cons, numberOf, List.find?_cons]
    by_cases hk : key = e.2
    · subst hk
      simp [h.1]
    · have hne : ¬ e.2 = key := fun heq => hk heq.symm
      rw [beq_eq_false_iff_ne.mpr hk, decide_eq_false hne]
      exact ih h.2

/-- A key has a number exactly if a node got one under it. -/
theorem numberOf_ne_zero (h : t.Numbered .empty own) (key : Key) :
    t.numberOf own key ≠ 0 ↔ ∃ i, (i, key) ∈ own := by
  rw [numberOf]
  cases hfind : own.find? fun e => e.2 = key with
  | none =>
    have hnone := List.find?_eq_none.mp hfind
    refine ⟨fun hne => absurd rfl hne, ?_⟩
    rintro ⟨i, hi⟩
    exact absurd (by simp) (hnone _ hi)
  | some e =>
    have hkey : e.2 = key := by simpa using List.find?_some hfind
    have hmem := List.mem_of_find?_eq_some hfind
    refine ⟨fun _ => ⟨e.1, hkey ▸ hmem⟩, fun _ => ?_⟩
    obtain ⟨own', before, rfl⟩ := List.append_of_mem hmem
    rw [Option.bind_some, h.flowId_eq, Option.getD_some]
    have : (IdScope.empty).next = 1 := rfl
    omega

end Numbered

end Tree

end LosslessGo
