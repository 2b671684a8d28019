import LosslessGo.Proofs.Entries
import LosslessGo.Tree.Basic

/-!
# Tables of fields

`Fields.get?_insert` reads a table after a field was set; a field read from a list of entries is one
of them (`Fields.mem_of_get?_ofList`). Names are plain (`IsPlainName`), but for that of the field that
holds the number of a node. Tables stay in order (`Fields.ordered_ofList`, `Fields.Ordered.insert`).
-/

namespace LosslessGo

/-- A name of letters and digits. -/
@[simp] def IsPlainName (name : String) : Bool := name.toList.all Char.isAlphanum

theorem ne_flowIdName {name : String} (h : IsPlainName name) : name ≠ Node.flowIdName := by
  rintro rfl
  exact absurd h (by decide)

namespace Fields

variable {name : String} {v : FieldValue} {entries : List (String × FieldValue)} {fs : Fields}
  {e : String × FieldValue}

theorem get?_insert (fs : Fields) (name name' : String) (v : FieldValue) :
    (fs.insert name v).get? name' = if name' = name then some v else fs.get? name' := by
  rw [get?, insert, insertEntry_eq, Entries.lookup_set, get?]

theorem mem_insert (h : e ∈ (fs.insert name v).entries) : e = (name, v) ∨ e ∈ fs.entries :=
  Entries.mem_set (insertEntry_eq name v fs.entries ▸ h)

theorem mem_ofList (h : e ∈ (ofList entries).entries) : e ∈ entries := by
  have hfold : ∀ fs : Fields, e ∈ (entries.foldl (fun fs e => fs.insert e.1 e.2) fs).entries →
      e ∈ fs.entries ∨ e ∈ entries := by
    clear h
    intro fs h
    induction entries generalizing fs with
    | nil => exact .inl h
    | cons e' rest ih =>
      rcases ih _ h with hfs | hrest
      · rcases mem_insert hfs with rfl | hfs
        · exact .inr List.mem_cons_self
        · exact .inl hfs
      · exact .inr (List.mem_cons_of_mem _ hrest)
  rcases hfold empty h with h | h
  · cases h
  · exact h

theorem mem_of_get? (h : fs.get? name = some v) : (name, v) ∈ fs.entries := Entries.mem_of_lookup h

theorem mem_of_get?_ofList (h : (ofList entries).get? name = some v) : (name, v) ∈ entries :=
  mem_ofList (mem_of_get? h)

theorem get?_ofList_eq_none
    (h : ∀ e ∈ entries, e.1 ≠ name) : (ofList entries).get? name = none := by
  cases hv : (ofList entries).get? name with
  | none => rfl
  | some v => exact absurd rfl (h _ (mem_of_get?_ofList hv))

/-- The names stand in ascending order, each once. -/
def Ordered (fs : Fields) : Prop := fs.entries.Pairwise fun e e' => e.1 < e'.1

theorem Ordered.insert (h : fs.Ordered) : (fs.insert name v).Ordered := by
  rw [Ordered, Fields.insert, insertEntry_eq]
  exact Entries.Ordered.set h

theorem ordered_ofList : (ofList entries).Ordered := by
  have hfold : ∀ fs : Fields, fs.Ordered →
      (entries.foldl (fun fs e => fs.insert e.1 e.2) fs).Ordered := by
    induction entries with
    | nil => exact fun _ h => h
    | cons e rest ih => exact fun fs h => ih _ h.insert
  exact hfold empty List.Pairwise.nil

end Fields

end LosslessGo
