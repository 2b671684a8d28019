import LosslessGo.Document.Collection
import LosslessGo.Tree.Fields

/-!
# Entries by name

Tables of fields and collections of documents both keep their entries in ascending order of the names,
each name once, and set an entry in the same way (`Fields.insertEntry_eq`, `Collection.insertEntry_eq`).

* `Entries.lookup_set`: what is found after an entry was set.
* `Entries.Ordered.set`: entries stay in order.
* `Entries.Ordered.ext`: entries in order are known by what is found in them.
-/

namespace LosslessGo

namespace Entries

variable {β : Type} {name : String} {v : β} {entries entries' : List (String × β)} {e : String × β}

/-- Ordered entries with the value of `name` set to `v`. -/
def set (name : String) (v : β) : List (String × β) → List (String × β)
  | [] => [(name, v)]
  | (n, w) :: rest =>
    if name < n then (name, v) :: (n, w) :: rest
    else if name = n then (name, v) :: rest
    else (n, w) :: set name v rest

theorem lookup_cons (name n : String) (w : β) (rest : List (String × β)) :
    ((n, w) :: rest).lookup name = if name = n then some w else rest.lookup name := by
  rw [List.lookup_cons]
  by_cases h : name = n
  · simp [h]
  · simp [h, beq_eq_false_iff_ne.mpr h]

theorem lookup_set (name name' : String) (v : β) (entries : List (String × β)) :
    (set name v entries).lookup name' = if name' = name then some v else entries.lookup name' := by
  induction entries with
  | nil => rw [set, lookup_cons]
  | cons e rest ih =>
    obtain ⟨n, w⟩ := e
    unfold set
    split
    · rw [lookup_cons]
    split
    · rename_i h
      subst h
      simp only [lookup_cons]
      split <;> rfl
    · rename_i h
      simp only [lookup_cons, ih]
      split
      · rename_i h'
        rw [if_neg (by rw [h']; exact Ne.symm h)]
      · rfl

theorem mem_set (h : e ∈ set name v entries) : e = (name, v) ∨ e ∈ entries := by
  induction entries with
  | nil => exact .inl (List.mem_singleton.mp h)
  | cons e' rest ih =>
    unfold set at h
    split at h
    · exact List.mem_cons.mp h
    split at h
    · exact (List.mem_cons.mp h).imp_right (List.mem_cons_of_mem _)
    rcases List.mem_cons.mp h with rfl | h
    · exact .inr List.mem_cons_self
    · exact (ih h).imp_right (List.mem_cons_of_mem _)

theorem mem_of_lookup (h : entries.lookup name = some v) : (name, v) ∈ entries := by
  obtain ⟨before, after, heq, -⟩ := List.lookup_eq_some_iff.mp h
  rw [heq]
  simp

/-- The names stand in ascending order, each once. -/
def Ordered (entries : List (String × β)) : Prop := entries.Pairwise fun e e' => e.1 < e'.1

namespace Ordered

theorem set (h : Ordered entries) : Ordered (set name v entries) := by
  induction entries with
  | nil => exact List.pairwise_singleton _ _
  | cons e rest ih =>
    obtain ⟨hfirst, hrest⟩ := List.pairwise_cons.mp h
    unfold Entries.set
    split
    · rename_i hlt
      refine List.pairwise_cons.mpr ⟨List.forall_mem_cons.mpr ⟨hlt, fun e' he' => ?_⟩, h⟩
      exact String.lt_trans hlt (hfirst e' he')
    split
    · rename_i heq
      subst heq
      exact List.pairwise_cons.mpr ⟨hfirst, hrest⟩
    · rename_i hlt hne
      refine List.pairwise_cons.mpr ⟨fun e' he' => ?_, ih hrest⟩
      rcases mem_set he' with rfl | he'
      · refine Decidable.byContradiction fun hge => hne ?_
        exact String.le_antisymm (String.not_lt.mp hge) (String.not_lt.mp hlt)
      · exact hfirst e' he'

/-- Every entry is found under its name. -/
theorem lookup_of_mem (h : Ordered entries) (he : (name, v) ∈ entries) :
    entries.lookup name = some v := by
  induction entries with
  | nil => cases he
  | cons e rest ih =>
    obtain ⟨hfirst, hrest⟩ := List.pairwise_cons.mp h
    obtain ⟨n, w⟩ := e
    rw [lookup_cons]
    rcases List.mem_cons.mp he with heq | he
    · cases heq
      exact if_pos rfl
    · have hlt : n < name := hfirst _ he
      have hne : name ≠ n := fun heq => String.lt_irrefl n (heq ▸ hlt)
      rw [if_neg hne]
      exact ih hrest he

theorem mem_iff (h : Ordered entries) : (name, v) ∈ entries ↔ entries.lookup name = some v :=
  ⟨h.lookup_of_mem, mem_of_lookup⟩

theorem nodup (h : Ordered entries) : entries.Nodup := by
  refine List.Pairwise.imp (fun {e e'} hlt => ?_) h
  rintro rfl
  exact String.lt_irrefl e.1 hlt

/-- Entries in order are known by what is found in them. -/
theorem ext (h : Ordered entries) (h' : Ordered entries')
    (hlookup : ∀ name, entries.lookup name = entries'.lookup name) : entries = entries' := by
  have hperm : entries.Perm entries' :=
    (List.perm_ext_iff_of_nodup h.nodup h'.nodup).mpr fun e => by
      rw [h.mem_iff, h'.mem_iff, hlookup]
  exact hperm.eq_of_pairwise (fun _ _ _ _ hlt hgt => absurd hgt (String.lt_asymm hlt)) h h'

end Ordered

end Entries

theorem Fields.insertEntry_eq (name : String) (v : FieldValue)
    (entries : List (String × FieldValue)) :
    insertEntry name v entries = Entries.set name v entries := by
  fun_induction insertEntry name v entries with
  | case1 => rfl
  | case2 n w rest h => rw [Entries.set, if_pos h]
  | case3 w rest h => rw [Entries.set, if_neg h, if_pos rfl]
  | case4 n w rest h h' ih => rw [Entries.set, if_neg h, if_neg h', ih]

theorem Collection.insertEntry_eq (name document : String) (entries : List (String × String)) :
    insertEntry name document entries = Entries.set name document entries := by
  fun_induction insertEntry name document entries with
  | case1 => rfl
  | case2 n w rest h => rw [Entries.set, if_pos h]
  | case3 w rest h => rw [Entries.set, if_neg h, if_pos rfl]
  | case4 n w rest h h' ih => rw [Entries.set, if_neg h, if_neg h', ih]

end LosslessGo
