import LosslessGo.Proofs.Convert.Runs
import LosslessGo.Proofs.Draft.Takes
import LosslessGo.Proofs.Text.Slices

/-!
# How a conversion ends

* `convertFile_outcome`: a conversion gives a tree whose root stands for the whole file and ends with
  the end mark, or fails with one of the errors of its mode (`ConvertError.Arises`).
-/

namespace LosslessGo

variable {set : Setting} {d : Draft} {size : Nat}

/-- The node is the mark at the end of the source. -/
structure Node.IsEndMark (n : Node) (size : Nat) : Prop where
  token_eq : ∃ range, n.token = some ⟨"", range, .endOfFile⟩
  children_eq : n.children = []
  offset_eq : n.offset = size
  stop_eq : n.stop = size

/-- Node `i` stands for a whole file: it ends with the source, and the end mark is its last child. -/
structure Tree.IsFile (t : Tree) (size : Nat) (i : NodeId) : Prop where
  type_eq : (t.node i).type = .topLevel
  stop_eq : (t.node i).stop = size
  last : ∃ e, (t.children i).getLast? = some e ∧ (t.node e).IsEndMark size

theorem Text.eq_empty_of_slice? {s text : String} {a : Nat} (h : slice? s a a = some text) :
    text = "" := by
  obtain ⟨before, after, -, hstart, hstop⟩ := exists_append_of_slice? h
  rw [String.utf8ByteSize_append] at hstop
  exact String.utf8ByteSize_eq_zero_iff.mp (by omega)

theorem Build.endMark_yields :
    Yields (endMark set) d fun x d' => ∃ i ∈ x, i < d'.tree.size ∧
      (d'.tree.node i).IsEndMark set.size := by
  refine leaf_yields.mono ?_
  rintro x d' (⟨-, -, -, hkind, -⟩ | ⟨n, hn, rfl, rfl⟩)
  · exact absurd rfl hkind
  obtain ⟨range, text, htoken, htext⟩ := hn.token_eq
  have hnode : (d.add n).tree.node d.tree.size = n := Tree.node_push_size
  refine ⟨_, rfl, by simp [Draft.add], ?_⟩
  rw [hnode]
  exact ⟨⟨range, by rw [htoken, Text.eq_empty_of_slice? htext]⟩, hn.children_eq, hn.offset_eq,
    hn.stop_eq⟩

/-- What is appended comes last. -/
theorem Fill.append_last {f : Filling} {i : NodeId} :
    Yields (append set (some i)) f fun _ f' => f'.children.back? = some i := by
  have hpush (f : Filling) : Yields (push i) f fun _ f' => f'.children.back? = some i :=
    push_yields (by simp)
  refine .bind (.get ?_)
  split
  · exact hpush f
  simp only
  split
  · split
    · exact .bind .throw
    · exact hpush f
  · exact .bind (.get (.bind fun _ f' _ => hpush f'))

theorem Build.head_isFile {o : Outcome} {h : Head} {children : List NodeId} {e : NodeId}
    (htype : h.type = .topLevel) (hlast : children.getLast? = some e) (hlt : e < d.tree.size)
    (he : (d.tree.node e).IsEndMark set.size) :
    Yields (head set o h children) d fun x d' => ∃ i ∈ x, d'.tree.IsFile set.size i := by
  refine .bind (.get (node_yields.mono ?_))
  rintro x d' hmade
  cases hmade with
  | none hnil => simp [hnil] at hlast
  | leaf n key hnil => simp [hnil] at hlast
  | inner c c' hc hc' =>
    obtain rfl : e = c' := Option.some.inj (hlast.symm.trans hc')
    obtain ⟨fields, htree⟩ := d.number_tree
      (innerNode d.tree c e children h.type (fieldValues d o h.fields)) h.origin
    refine ⟨d.tree.size, rfl, ?_⟩
    have hnode := congrArg (·.node d.tree.size) htree
    simp only [Tree.node_push_size] at hnode
    refine ⟨by rw [hnode]; exact htype, by rw [hnode]; exact he.stop_eq, e, ?_, ?_⟩
    · rw [Tree.children, hnode]
      exact hlast
    · rw [htree, Tree.node_push_of_lt hlt]
      exact he

theorem ofFile_isFile {facts : Facts} {file : Go.File} :
    Yields ((Plan.ofFile facts file).build set "") d fun x d' =>
      ∃ i ∈ x, d'.tree.IsFile set.size i := by
  rw [Plan.ofFile, Plan.typed, Plan.build]
  refine .bind (.pure (.bind (Fill.gather_yields ?_)))
  -- Whatever comes before, the end mark is made and appended at last.
  refine runSteps_one_yields fun x d₁ _ => ?_
  intro _ f₁ _
  refine runSteps_one_yields fun y d₂ _ => ?_
  intro _ f₂ _
  refine runSteps_one_yields (Build.endMark_yields.mono ?_)
  rintro z d₃ ⟨e, rfl, hlt, he⟩
  refine (Fill.append_last.and Fill.append_takes).mono ?_
  rintro - f₃ ⟨hlast, htakes⟩
  have hlast₃ : f₃.children.toList.getLast? = some e := by rw [Array.getLast?_toList, hlast]
  have he₃ : (f₃.draft.tree.node e).IsEndMark set.size := by
    rw [htakes.grows.tree.node_eq e hlt]
    exact he
  have hlt₃ := hlt.trans_le htakes.grows.tree.size_le
  exact .pure (.bind (.pure (.bind ((Build.head_isFile rfl hlast₃ hlt₃ he₃).mono
    fun _ _ h => .pure h))))

theorem buildFile_isFile {facts : Facts} {file : Go.File} :
    Yields (buildFile set facts file) d fun x d' => ∃ i ∈ x, d'.tree.IsFile set.size i := by
  refine .bind fun _ d₁ _ => .bind (ofFile_isFile.mono fun x d₂ h => ?_)
  refine .bind (checkRoot_yields.mono ?_)
  rintro - _ rfl
  exact .pure h

/-- A conversion gives a tree whose root stands for the whole file, or fails with an error of its
mode. -/
theorem convertFile_outcome (file : Go.File) (source : SourceFile) (symbols : SymbolTable)
    (options : ConvertOptions) :
    (∃ r root, convertFile file source symbols options = .ok r ∧ r.root = some root ∧
      r.tree.IsFile source.size root) ∨
    ∃ e, convertFile file source symbols options = .error e ∧ e.Arises options.strict := by
  have hrun := convertFile_along (fun _ => []) file source symbols symbols options options id
    (fun _ => by simp) rfl
  cases h : convertFile file source symbols options with
  | ok r =>
    unfold convertFile at h
    split at h
    · rename_i x d hd
      cases h
      obtain ⟨root, hroot, hfile⟩ := buildFile_isFile x d hd
      exact .inl ⟨_, root, rfl, hroot, hfile⟩
    · cases h
  | error e => exact .inr ⟨e, rfl, (hrun.error e h).1⟩

end LosslessGo
