import LosslessGo.Proofs.Tree.Fields
import LosslessGo.Proofs.Tree.Grows

/-!
# Trees without some of their fields

Two trees may differ in what certain fields say and agree in all else. `Hidden` lists the names of such
fields for every type of node, and `Node.without`, `Tree.without` leave these fields out.

* `Fields.without_ofList`, `Fields.without_insert`: fields may be left out before or after a table is
  made.
* `Node.Alike`, `Tree.Alike`: equality apart from hidden fields.
-/

namespace LosslessGo

/-- The names of the fields to leave out, by type of node. -/
abbrev Hidden := NodeType → List String

namespace Fields

variable {name : String} {v : FieldValue} {names : List String} {fs : Fields}
  {entries : List (String × FieldValue)}

/-- The table without the fields of the given names. -/
def without (fs : Fields) (names : List String) : Fields := ⟨fs.entries.filter (·.1 ∉ names)⟩

@[simp] theorem without_nil (fs : Fields) : fs.without [] = fs :=
  congrArg Fields.mk (List.filter_eq_self.mpr fun _ _ => by simp)

/-- Fields are left out once. -/
theorem without_without (fs : Fields) (names : List String) :
    (fs.without names).without names = fs.without names := by
  simp [without]

/-- An entry whose name comes before all others is set at the front. -/
theorem insertEntry_of_lt (h : ∀ e ∈ entries, name < e.1) :
    insertEntry name v entries = (name, v) :: entries := by
  cases entries with
  | nil => rfl
  | cons e rest => exact if_pos (h e List.mem_cons_self)

/-- Setting a field that is left out makes no difference. -/
theorem without_insert_of_mem (h : name ∈ names) :
    (fs.insert name v).without names = fs.without names := by
  have hinsert : (insertEntry name v fs.entries).filter (·.1 ∉ names) =
      fs.entries.filter (·.1 ∉ names) := by
    induction fs.entries with
    | nil => simp [insertEntry, h]
    | cons e rest ih =>
      unfold insertEntry
      split
      · simp [h]
      split
      · rename_i heq
        simp [← heq, h]
      · simp only [List.filter_cons, ih]
  exact congrArg Fields.mk hinsert

/-- Any other field may be set before or after. -/
theorem without_insert (hfs : fs.Ordered) (h : name ∉ names) :
    (fs.insert name v).without names = (fs.without names).insert name v := by
  have hinsert (entries : List (String × FieldValue))
      (hentries : entries.Pairwise fun e e' => e.1 < e'.1) :
      (insertEntry name v entries).filter (·.1 ∉ names) =
        insertEntry name v (entries.filter (·.1 ∉ names)) := by
    induction entries with
    | nil => simp [insertEntry, h]
    | cons e rest ih =>
      obtain ⟨hfirst, hrest⟩ := List.pairwise_cons.mp hentries
      rw [insertEntry]
      split
      · -- The entry goes to the front, also where the first entries are left out.
        rename_i hlt
        have hall : ∀ e' ∈ e :: rest, name < e'.1 :=
          List.forall_mem_cons.mpr ⟨hlt, fun e' he' => String.lt_trans hlt (hfirst e' he')⟩
        rw [insertEntry_of_lt fun e' he' => hall e' (List.mem_filter.mp he').1]
        simp [h]
      split
      · rename_i heq
        subst heq
        simp [h, insertEntry]
      · rename_i hlt hne
        by_cases he : e.1 ∈ names
        · rw [List.filter_cons_of_neg (by simpa using he),
            List.filter_cons_of_neg (by simpa using he), ih hrest]
        · rw [List.filter_cons_of_pos (by simpa using he),
            List.filter_cons_of_pos (by simpa using he), ih hrest, insertEntry, if_neg hlt,
            if_neg hne]
  exact congrArg Fields.mk (hinsert fs.entries hfs)

/-- Entries may be left out before the table is made. -/
theorem without_ofList (names : List String) (entries : List (String × FieldValue)) :
    (ofList entries).without names = ofList (entries.filter (·.1 ∉ names)) := by
  have hfold : ∀ fs : Fields, fs.Ordered →
      (entries.foldl (fun fs e => fs.insert e.1 e.2) fs).without names =
        (entries.filter (·.1 ∉ names)).foldl (fun fs e => fs.insert e.1 e.2) (fs.without names) := by
    induction entries with
    | nil => exact fun _ _ => rfl
    | cons e rest ih =>
      intro fs hfs
      rw [List.foldl_cons, ih _ hfs.insert]
      by_cases he : e.1 ∈ names
      · rw [without_insert_of_mem he, List.filter_cons_of_neg (by simpa using he)]
      · rw [without_insert hfs he, List.filter_cons_of_pos (by simpa using he), List.foldl_cons]
  exact hfold empty .nil

end Fields

variable {hidden : Hidden} {n n' : Node} {t t' : Tree}

/-- The node without its hidden fields. -/
def Node.without (hidden : Hidden) (n : Node) : Node :=
  { n with fields := n.fields.without (hidden n.type) }

/-- The tree without the hidden fields of its nodes. -/
def Tree.without (hidden : Hidden) (t : Tree) : Tree := ⟨t.nodes.map (Node.without hidden)⟩

/-! ## Nodes -/

/-- The nodes are the same, hidden fields apart. -/
structure Node.Alike (hidden : Hidden) (n n' : Node) : Prop where
  type_eq : n.type = n'.type
  range_eq : n.range = n'.range
  offset_eq : n.offset = n'.offset
  stop_eq : n.stop = n'.stop
  token_eq : n.token = n'.token
  children_eq : n.children = n'.children
  fields_eq : n.fields.without (hidden n.type) = n'.fields.without (hidden n.type)

theorem Node.alike_iff : n.Alike hidden n' ↔ n.without hidden = n'.without hidden := by
  constructor
  · rintro ⟨htype, hrange, hoffset, hstop, htoken, hchildren, hfields⟩
    simp only [without, ← htype, hrange, hoffset, hstop, htoken, hchildren, hfields]
  · intro h
    simp only [without, Node.mk.injEq] at h
    obtain ⟨htype, hrange, hoffset, hstop, htoken, hchildren, hfields⟩ := h
    exact ⟨htype, hrange, hoffset, hstop, htoken, hchildren, htype ▸ hfields⟩

namespace Node.Alike

variable (h : n.Alike hidden n')

include h

theorem isVisible_eq : n.isVisible = n'.isVisible := by
  rw [isVisible, isVisible, h.token_eq]

/-- A field is set in both nodes. -/
theorem insert {name : String} {v : FieldValue} (hn : n.fields.Ordered) (hn' : n'.fields.Ordered)
    (hname : name ∉ hidden n.type) :
    Node.Alike hidden { n with fields := n.fields.insert name v }
      { n' with fields := n'.fields.insert name v } :=
  { h with
    fields_eq := by
      rw [Fields.without_insert hn hname, Fields.without_insert hn' hname, h.fields_eq] }

end Node.Alike

/-! ## Trees -/

/-- The trees are the same, hidden fields apart. -/
def Tree.Alike (hidden : Hidden) (t t' : Tree) : Prop := t.without hidden = t'.without hidden

theorem Tree.node_without (hidden : Hidden) (t : Tree) (i : NodeId) :
    (t.without hidden).node i = (t.node i).without hidden := by
  simp only [node, without, Array.getD_eq_getD_getElem?, Array.getElem?_map]
  cases t.nodes[i]? with
  | none => rfl
  | some n => rfl

theorem Tree.without_push (hidden : Hidden) (t : Tree) (n : Node) :
    (t.push n).without hidden = (t.without hidden).push (n.without hidden) := by
  simp [push, without]

/-- With nothing hidden nothing is left out. -/
@[simp] theorem Tree.without_nothing (t : Tree) : t.without (fun _ => []) = t := by
  have hnode : Node.without (fun _ => []) = id := funext fun n => by simp [Node.without]
  simp [without, hnode]

namespace Tree.Alike

variable (h : t.Alike hidden t')

include h

theorem node (i : NodeId) : (t.node i).Alike hidden (t'.node i) := by
  rw [Node.alike_iff, ← node_without, ← node_without, h]

theorem size_eq : t.size = t'.size := by
  have hsize := congrArg (·.nodes.size) h
  simpa [without, size] using hsize

theorem push (hn : n.Alike hidden n') : (t.push n).Alike hidden (t'.push n') := by
  rw [Alike, without_push, without_push, h, Node.alike_iff.mp hn]

theorem children_eq (i : NodeId) : t.children i = t'.children i := (h.node i).children_eq

theorem visible_eq (is : List NodeId) : t.visible is = t'.visible is :=
  List.filter_congr fun i _ => (h.node i).isVisible_eq

end Tree.Alike

end LosslessGo
