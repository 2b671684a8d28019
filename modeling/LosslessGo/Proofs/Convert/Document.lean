import LosslessGo.Proofs.Convert.References
import LosslessGo.Proofs.Document.Reads

/-!
# The document of a file

The document of a converted file is JSON, and reads as what the file says (`convertFile_document`).
-/

namespace LosslessGo

open Json (IsVerbatim IsBlank IsInert Reads forall₂_reads_map)

variable {set : Setting}

/-- Every result of a list of steps is that of its step. -/
theorem forall₂_of_mapM {α β ε : Type} {f : α → Except ε β} {xs : List α} {ys : List β}
    (h : xs.mapM f = .ok ys) : List.Forall₂ (fun x y => f x = .ok y) xs ys := by
  induction xs generalizing ys with
  | nil =>
    cases h
    exact .nil
  | cons x xs ih =>
    rw [List.mapM_cons] at h
    cases hx : f x with
    | error e => simp [hx, bind, Except.bind] at h
    | ok y =>
      cases hxs : xs.mapM f with
      | error e => simp [hx, hxs, bind, Except.bind] at h
      | ok ys' =>
        simp only [hx, hxs, bind, Except.bind, pure, Except.pure, Except.ok.injEq] at h
        subst h
        exact .cons hx (ih hxs)

namespace Converted

/-- The parts of a document. -/
theorem document_eq {r : Converted} {root : NodeId} {indent : String} {message : Option String}
    {text : String} (htext : r.document indent message = .ok text) (hroot : r.root = some root) :
    ∃ comments, List.Forall₂ (fun i s => commentText (r.tree.node i) = .ok s) r.comments comments ∧
      text = documentText indent (metadataText indent (comments.map (indent ++ indent ++ indent ++ ·))
        (r.tokens.map fun i => tokenText (indent ++ indent ++ indent) (r.tree.node i)))
        (nodeText r.tree indent (indent ++ indent) root) message := by
  rw [Converted.document] at htext
  cases hcomments : r.comments.mapM fun i => commentText (r.tree.node i) with
  | error e => simp [hcomments, bind, Except.bind] at htext
  | ok comments =>
    simp only [hcomments, bind, Except.bind, pure, Except.pure, Except.ok.injEq, hroot] at htext
    exact ⟨comments, forall₂_of_mapM hcomments, htext.symm⟩

/-- Where there is a document, all comments have content. -/
theorem givesContent (r : Converted) {root : NodeId} (hroot : r.root = some root)
    {indent : String} {message : Option String} {text : String}
    (htext : r.document indent message = .ok text) :
    ∀ i ∈ r.comments, (r.tree.node i).GivesContent := by
  obtain ⟨comments, hcomments, -⟩ := document_eq htext hroot
  have hboth : List.Forall₂
      (fun i s => (r.tree.node i).GivesContent ∧ commentText (r.tree.node i) = .ok s)
      r.comments comments := hcomments.imp fun i s hs => ⟨givesContent_of_commentText hs, hs⟩
  exact ((List.forall₂_and_left _ _).mp hboth).1

namespace Rooted

variable {r : Converted} {k : Nat} {root : NodeId} (h : r.Rooted set k root)

include h

/-- The fields of a node are those of a comment or formed, or there are none. -/
theorem forall_fields {P : Fields → Prop} (hcomment : P (tokenFields ""))
    (hformed : ∀ i, (r.tree.node i).Formed r.tree k i → P (r.tree.node i).fields) (hnone : P .empty)
    (i : NodeId) : P (r.tree.node i).fields := by
  by_cases hi : i < k
  · obtain ⟨offset, stop, hn⟩ := h.comment i hi
    rw [hn.fields_eq]
    exact hcomment
  by_cases hlt : i < r.tree.size
  · exact hformed i (h.formed i (Nat.le_of_not_lt hi) hlt)
  · rw [Tree.node_of_size_le (Nat.le_of_not_lt hlt)]
    exact hnone

/-- The names of all fields need no quoting. -/
theorem isVerbatim (i : NodeId) : ∀ e ∈ (r.tree.node i).fields.entries, IsVerbatim e.1 := by
  refine h.forall_fields (P := fun fs => ∀ e ∈ fs.entries, IsVerbatim e.1) (fun e he => ?_)
    (fun i hi e he => ?_) (fun e he => ?_) i
  · exact isVerbatim_of_plain (.inl (tokenFields_entries "" e (Fields.mem_ofList he)).1)
  · exact isVerbatim_of_plain (hi.names e he)
  · cases he

theorem ordered (i : NodeId) : (r.tree.node i).fields.Ordered :=
  h.forall_fields (P := Fields.Ordered) Fields.ordered_ofList (fun _ hi => hi.ordered) .nil i

/-- The tokens of a file are tokens. -/
theorem isSome_of_mem_tokens {i : NodeId} (hi : i ∈ r.tokens) : (r.tree.node i).token.isSome := by
  have hlisted := (List.mem_filter.mp (h.tokens_perm.mem_iff.mp hi)).2
  rw [Node.isListed] at hlisted
  cases htoken : (r.tree.node i).token with
  | none => simp [htoken] at hlisted
  | some t => rfl

theorem reads_document (hroot : r.root = some root) {indent : String} (hindent : IsBlank indent)
    {message : Option String} {text : String} (htext : r.document indent message = .ok text) :
    Reads text (r.value message) := by
  obtain ⟨comments, hcomments, rfl⟩ := document_eq htext hroot
  have hlead := (hindent.append hindent).append hindent
  rw [Converted.value, hroot]
  refine reads_documentText hindent ?_ ?_ ?_ message
  · rw [List.forall₂_map_left_iff, List.forall₂_map_right_iff]
    exact hcomments.flip.imp fun text i hi => (reads_commentText hi).blank hlead
  · exact forall₂_reads_map fun i hi => reads_tokenText hlead (h.isSome_of_mem_tokens hi)
  · exact reads_nodeText hindent h.isVerbatim root (hindent.append hindent)

/-- In a converted file all references are followed. -/
theorem value_eq (i : NodeId) : r.tree.value i = (r.tree.node i).value r.tree.value := by
  rw [Tree.value]
  refine Node.value_congr fun c hc => ?_
  rw [dif_pos (h.sound.descends.lt_of_under (h.under hc))]

end Rooted

end Converted

theorem reads_failureDocument {indent : String} (hindent : IsBlank indent) (message : String) :
    Reads (failureDocument indent message) (failureValue message) :=
  reads_documentText hindent .nil .nil (reads_nullText.blank (hindent.append hindent)) (some message)

theorem isBlank_of_indent {indent : String} (h : ∀ c ∈ indent.toList, c = ' ' ∨ c = '\t') :
    IsBlank indent := by
  intro c hc
  rcases h c hc with rfl | rfl <;> rfl

/-- The document of a converted file is JSON and holds no markup. Whatever the indent, it reads as the
lists of comments and tokens, the tree, and the message. The tree follows all references and has the
fields of each node in descending order of the names. The document of a file without a tree is JSON as
well. -/
theorem convertFile_document {file : Go.File} {source : SourceFile} {symbols : SymbolTable}
    {options : ConvertOptions} {r : Converted}
    (h : convertFile file source symbols options = .ok r) {indent : String}
    (hindent : ∀ c ∈ indent.toList, c = ' ' ∨ c = '\t') :
    (∀ message text, r.document indent message = .ok text →
      Json.read text = some (r.value message) ∧ IsInert text ∧
      ∀ i ∈ r.comments, (r.tree.node i).GivesContent) ∧
    (∀ i, r.tree.value i = (r.tree.node i).value r.tree.value ∧ (r.tree.node i).fields.Ordered) ∧
    ∀ message, Json.read (failureDocument indent message) = some (failureValue message) ∧
      IsInert (failureDocument indent message) := by
  obtain ⟨k, root, hroot, hr⟩ := convertFile_rooted h
  have hblank := isBlank_of_indent hindent
  refine ⟨fun message text htext => ?_, fun i => ⟨hr.value_eq i, hr.ordered i⟩, fun message => ?_⟩
  · obtain ⟨hread, hinert⟩ := (hr.reads_document hroot hblank htext).read_eq
    exact ⟨hread, hinert, r.givesContent hroot htext⟩
  · exact (reads_failureDocument hblank message).read_eq

theorem convertFile_document_commentedFile :
    ∃ r text, convertFile commentedFile commentedSource .empty ⟨true, false⟩ = .ok r ∧
      r.document "  " none = .ok text ∧ Json.read text = some (r.value none) ∧ IsInert text ∧
      (∀ i ∈ r.comments, (r.tree.node i).GivesContent) ∧
      (∀ i, r.tree.value i = (r.tree.node i).value r.tree.value ∧
        (r.tree.node i).fields.Ordered) ∧
      Json.read (failureDocument "  " "no tree") = some (failureValue "no tree") := by
  have hrun : (convertFile commentedFile commentedSource .empty ⟨true, false⟩).toOption.any (fun r =>
      (r.comments.mapM fun i => commentText (r.tree.node i)).isOk) = true := by
    decide +kernel
  cases h : convertFile commentedFile commentedSource .empty ⟨true, false⟩ with
  | error e =>
    rw [h] at hrun
    cases hrun
  | ok r =>
    have hcomments : (r.comments.mapM fun i => commentText (r.tree.node i)).isOk = true := by
      rwa [h] at hrun
    have hindent : ∀ c ∈ "  ".toList, c = ' ' ∨ c = '\t' := by simp
    obtain ⟨hdocument, hvalue, hfailure⟩ := convertFile_document h hindent
    obtain ⟨text, htext⟩ : ∃ text, r.document "  " none = .ok text := by
      cases hc : r.comments.mapM fun i => commentText (r.tree.node i) with
      | error e =>
        rw [hc] at hcomments
        cases hcomments
      | ok comments =>
        rw [Converted.document, hc]
        exact ⟨_, rfl⟩
    obtain ⟨hread, hinert, hcontent⟩ := hdocument none text htext
    exact ⟨r, text, rfl, htext, hread, hinert, hcontent, hvalue, (hfailure "no tree").1⟩

end LosslessGo
