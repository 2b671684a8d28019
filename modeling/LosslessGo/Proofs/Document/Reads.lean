import LosslessGo.Proofs.Document.Value
import LosslessGo.Proofs.Json.Values
import LosslessGo.Proofs.Tree.Fields

/-!
# Documents are read back

The texts that make up a document are JSON, and the reader reads from them what the document says.

* `reads_nodeText`: the text of a node, at any depth.
* `passes_metadataText`: the lists of comments and tokens.
* `reads_documentText`: a document from its parts.
-/

namespace LosslessGo

open Json

/-! ## Graphs -/

namespace Flow

theorem reads_numbersText (ns : List Int) : Reads (numbersText ns) (numbersValue ns) := by
  cases ns with
  | nil => exact .of_passes fun _ => .fixed rfl rfl
  | cons n ns => exact reads_array (forall₂_reads_map fun n _ => reads_int n)

theorem GraphBlock.reads_text (b : GraphBlock) : Reads b.text b.value := .of_passes fun frames => by
  obtain ⟨s₁, h₁, hend₁⟩ := reads_numbersText b.ids (.object [] "Node" :: frames)
  obtain ⟨s₂, h₂, hend₂⟩ := reads_numbersText b.successors
    (.object [("Node", numbersValue b.ids)] "Successors" :: frames)
  exact ((((Passes.fixed rfl rfl).append h₁).append (hend₁.passes (.fixed rfl rfl) rfl)).append
    h₂).append (hend₂.passes (.fixed rfl rfl) rfl)

theorem Graph.reads_text (g : Graph) : Reads g.text g.value := .of_passes fun frames => by
  have hblocks : List.Forall₂ Reads (g.blocks.map (·.text)) (g.blocks.map (·.value)) :=
    forall₂_reads_map fun b _ => b.reads_text
  obtain ⟨s, hs, hin⟩ := passes_items isSeparator_comma hblocks (.object [] "Blocks" :: frames)
  have hclose : Passes s ("]" ++ "\x7d") (.after g.value frames) := hin.close.append (.fixed rfl rfl)
  exact ((Passes.fixed rfl rfl).append hs).append hclose

end Flow

/-! ## Names -/

theorem toNat_of_isAlphanum {c : Char} (h : c.isAlphanum = true) :
    0x30 ≤ c.toNat ∧ c.toNat ≤ 0x7a := by
  have hwithin {lo hi : UInt32} (hlo : 0x30 ≤ lo.toNat) (hhi : hi.toNat ≤ 0x7a) (h₁ : c.val ≥ lo)
      (h₂ : c.val ≤ hi) : 0x30 ≤ c.toNat ∧ c.toNat ≤ 0x7a :=
    ⟨Nat.le_trans hlo (UInt32.le_iff_toNat_le.mp h₁), Nat.le_trans (UInt32.le_iff_toNat_le.mp h₂) hhi⟩
  rcases Bool.or_eq_true_iff.mp h with hletter | hdigit
  · rcases Bool.or_eq_true_iff.mp hletter with hupper | hlower
    · obtain ⟨h₁, h₂⟩ := of_decide_eq_true hupper
      exact hwithin (by decide) (by decide) h₁ h₂
    · obtain ⟨h₁, h₂⟩ := Bool.and_eq_true_iff.mp hlower
      exact hwithin (by decide) (by decide) (of_decide_eq_true h₁) (of_decide_eq_true h₂)
  · obtain ⟨h₁, h₂⟩ := Bool.and_eq_true_iff.mp hdigit
    exact hwithin (by decide) (by decide) (of_decide_eq_true h₁) (of_decide_eq_true h₂)

/-- The names of fields need no escaping. -/
theorem isVerbatim_of_plain {name : String} (h : IsPlainName name ∨ name = Node.flowIdName) :
    IsVerbatim name := by
  refine isVerbatim_of_forall ?_
  rcases h with h | rfl
  · intro c hc
    have halnum : c.isAlphanum = true := List.all_eq_true.mp h c hc
    have hother (c' : Char) (h' : c'.isAlphanum = false) : c ≠ c' := by
      rintro rfl
      rw [halnum] at h'
      cases h'
    have hval := toNat_of_isAlphanum halnum
    have hcontrol : ¬c.val < 0x20 := by
      rw [UInt32.lt_iff_toNat_lt]
      exact Nat.not_lt.mpr (Nat.le_trans (by decide) hval.1)
    have hne {n : UInt32} (hn : 0x7a < n.toNat) : c.val ≠ n := by
      rintro rfl
      exact absurd hval.2 (Nat.not_le.mpr hn)
    refine escape_eq_toString (hother '"' rfl) (hother '\\' rfl) ?_
    simp [isNumbered, hcontrol, hother '<' rfl, hother '>' rfl, hother '&' rfl,
      hne (n := 0x2028) (by decide), hne (n := 0x2029) (by decide)]
  · exact forall_of_all rfl

/-! ## Nodes -/

theorem reads_nullText : Reads nullText .null := .of_passes fun _ => .fixed rfl rfl

theorem passes_rangeText (r : TextRange) (frames : List Frame) :
    Passes (.value frames) (rangeText r) (.after r.value frames) := passes_quote r.text

/-- Items on lines of their own. -/
theorem reads_linesText {lead : String} {items : List String} {vs : List Value}
    (hlead : IsBlank lead) (h : List.Forall₂ Reads items vs) :
    Reads (linesText lead items) (.arr vs) := .of_passes fun frames => by
  rw [linesText]
  split
  · rename_i hempty
    rw [List.isEmpty_iff.mp hempty] at h
    cases h
    exact .fixed rfl rfl
  · obtain ⟨s₁, h₁, hin₁⟩ := passes_items isSeparator_line h _
    obtain ⟨s₂, h₂, hin₂⟩ := hin₁.blank isBlank_line
    obtain ⟨s₃, h₃, hin₃⟩ := hin₂.blank hlead
    exact ((((Passes.fixed rfl rfl).append h₁).append h₂).append h₃).append hin₃.close

/-- A field that refers to no node. -/
theorem reads_scalarText (below : NodeId → Value) {value : FieldValue} {v : Value}
    (hv : value.value? below = some v) (hnode : ∀ x, value ≠ .node x)
    (hnodes : ∀ xs, value ≠ .nodes xs) : Reads (scalarText value) v := by
  cases value with
  | node x => exact absurd rfl (hnode x)
  | nodes xs => exact absurd rfl (hnodes xs)
  | suppressed => cases hv
  | range r =>
    cases hv
    cases r with
    | none => exact reads_nullText
    | some r => exact .of_passes fun frames => passes_rangeText r frames
  | str s =>
    cases hv
    exact .of_passes fun frames => passes_quote s
  | int n =>
    cases hv
    exact reads_int n
  | bool b =>
    cases hv
    exact reads_text (.bool b)
  | strings ss =>
    cases hv
    exact reads_text _
  | graph g =>
    cases hv
    cases g with
    | none => exact reads_nullText
    | some g => exact g.reads_text
  | null =>
    cases hv
    exact reads_nullText

theorem reads_nodeText {t : Tree} {indent : String} (hindent : IsBlank indent)
    (hnames : ∀ i, ∀ e ∈ (t.node i).fields.entries, IsVerbatim e.1) (i : NodeId) {lead : String}
    (hlead : IsBlank lead) : Reads (nodeText t indent lead i) (t.value i) := by
  induction i using Nat.strongRecOn generalizing lead with
  | ind i ih =>
    have hdeeper := hlead.append hindent
    have hbelow (c : NodeId) : Reads
        (if _h : c < i then nodeText t indent (lead ++ indent) c else lead ++ indent ++ nullText)
        (if _h : c < i then t.value c else .null) := by
      split
      · exact ih c ‹_› hdeeper
      · exact reads_nullText.blank hdeeper
    rw [nodeText, Tree.value]
    refine .of_passes fun frames => ?_
    have hhead : Passes (.value frames) (lead ++ headText (t.node i)) (.after (t.node i).range.value
        (.object [("@type", .str (t.node i).type.name)] "metaData" :: frames)) := by
      rw [headText]
      exact (Passes.value_blank hlead).append ((((Passes.fixed rfl rfl).append (passes_quote _)).append
        (.fixed rfl rfl)).append (passes_rangeText _ _))
    let below (c : NodeId) : Value := if _h : c < i then t.value c else .null
    refine passes_fields (memberOf below)
      (fun e he s ms hne hs => ?_) hhead (.behind .after) (List.cons_ne_nil _ _)
    have hname := hnames i e (List.mem_reverse.mp he)
    -- A node stands on a line of its own, which starts behind the colon.
    have hline {name text : String} :
        ",\"" ++ name ++ "\":" ++ ("\n" ++ text) = ",\"" ++ name ++ "\":\n" ++ text := by
      rw [show "\":\n" = "\":" ++ "\n" from rfl]
      simp only [String.append_assoc]
    obtain ⟨name, value⟩ := e
    cases value with
    | suppressed => exact ⟨s, .fixed rfl rfl, by simpa [memberOf, FieldValue.value?] using hs⟩
    | node x =>
      cases x with
      | none =>
        have hfield := hs.field hne hname ((reads_nullText.blank hdeeper).blank isBlank_line)
        rw [hline, ← String.append_assoc] at hfield
        exact hfield
      | some c =>
        have hfield := hs.field hne hname ((hbelow c).blank isBlank_line)
        rw [hline] at hfield
        exact hfield
    | nodes cs =>
      exact hs.field hne hname (reads_linesText hlead (forall₂_reads_map fun c _ => hbelow c))
    | _ => exact hs.field hne hname (reads_scalarText below rfl (by simp) (by simp))

/-! ## Comments and tokens -/

/-- A comment has a text where it has content. -/
theorem exists_content_of_commentText {n : Node} {text : String} (h : commentText n = .ok text) :
    ∃ t content range, n.token = some t ∧ commentContent t = .ok (content, range) ∧
      n.commentValue = t.commentValue content range := by
  unfold commentText at h
  split at h
  · cases h
  · rename_i t ht
    split at h
    · cases h
    · rename_i content range hcontent
      exact ⟨t, content, range, ht, hcontent, by simp [Node.commentValue, ht, hcontent, Except.toOption]⟩

theorem givesContent_of_commentText {n : Node} {text : String} (h : commentText n = .ok text) :
    n.GivesContent := by
  obtain ⟨t, content, range, ht, hcontent, hvalue⟩ := exists_content_of_commentText h
  exact ⟨t, content, range, ht, hasContent_of_commentContent hcontent, hvalue⟩

theorem reads_commentText {n : Node} {text : String} (h : commentText n = .ok text) :
    Reads text n.commentValue := by
  obtain ⟨t, content, range, ht, hcontent, hvalue⟩ := exists_content_of_commentText h
  simp only [commentText, ht, hcontent, Except.ok.injEq] at h
  subst h
  rw [hvalue]
  refine .of_passes fun frames => ?_
  exact ((((((((Passes.fixed rfl rfl).append (passes_quote _)).append (.fixed rfl rfl)).append
    (passes_quote _)).append (.fixed rfl rfl)).append (passes_rangeText _ _)).append
    (.fixed rfl rfl)).append (passes_rangeText _ _)).append (.fixed rfl rfl)

theorem reads_tokenText {n : Node} {lead : String} (hlead : IsBlank lead) (h : n.token.isSome) :
    Reads (tokenText lead n) n.tokenValue := by
  obtain ⟨t, ht⟩ := Option.isSome_iff_exists.mp h
  rw [tokenText, Node.tokenValue, ht]
  refine .of_passes fun frames => ?_
  have hhead : Passes (.value frames)
      (lead ++ "\x7b\"text\":" ++ quote t.text ++ ",\"textRange\":" ++ rangeText t.range)
      (.after t.range.value (.object [("text", .str t.text)] "textRange" :: frames)) :=
    ((((Passes.value_blank hlead).append (.fixed rfl rfl)).append (passes_quote _)).append
      (.fixed rfl rfl)).append (passes_rangeText _ _)
  by_cases hkind : t.kind = .other
  · simp only [if_pos hkind, List.append_nil]
    exact (hhead.append (.fixed rfl rfl)).append (.fixed rfl rfl)
  · simp only [if_neg hkind]
    exact (hhead.append ((Passes.fixed rfl rfl).append (passes_quote _))).append (.fixed rfl rfl)

/-! ## Documents -/

section Documents

variable {indent : String} {frames : List Frame}

theorem passes_itemLines {items : List String} {vs : List Value} (h : List.Forall₂ Reads items vs)
    (frames : List Frame) :
    ∃ s, Passes (.value (.array [] :: frames)) (itemLines items) s ∧ s.InArray frames vs := by
  rw [itemLines]
  split
  · rename_i hempty
    rw [List.isEmpty_iff.mp hempty] at h
    cases h
    exact ⟨_, .fixed rfl rfl, .opened⟩
  · obtain ⟨s, hs, hin⟩ := passes_items isSeparator_line h frames
    obtain ⟨s', hs', hin'⟩ := hin.blank isBlank_line
    exact ⟨s', hs.append hs', hin'⟩

/-- The lists of comments and tokens. -/
theorem passes_metadataText (hindent : IsBlank indent) {comments tokens : List String}
    {cs ts : List Value} (hcomments : List.Forall₂ Reads comments cs)
    (htokens : List.Forall₂ Reads tokens ts) :
    Passes (.member [] frames) (metadataText indent comments tokens)
      (.member [("treeMetaData", .obj [("comments", .arr cs), ("tokens", .arr ts)])] frames) := by
  have hinner := hindent.append hindent
  obtain ⟨s₁, h₁, hin₁⟩ := passes_itemLines hcomments
    (.object [] "comments" :: .object [] "treeMetaData" :: frames)
  obtain ⟨s₂, h₂, hin₂⟩ := hin₁.blank hinner
  obtain ⟨s₃, h₃, hin₃⟩ := passes_itemLines htokens
    (.object [("comments", .arr cs)] "tokens" :: .object [] "treeMetaData" :: frames)
  obtain ⟨s₄, h₄, hin₄⟩ := hin₃.blank hinner
  have hopen : Passes (.member [] frames)
      (indent ++ "\"treeMetaData\": \x7b\n" ++ (indent ++ indent) ++ "\"comments\": [\n")
      (.value (.array [] :: .object [] "comments" :: .object [] "treeMetaData" :: frames)) :=
    (((Passes.member_blank hindent).append (.fixed rfl rfl)).append (.member_blank hinner)).append
      (.fixed rfl rfl)
  have hnext : Passes s₂ "],\n" (.member [("comments", .arr cs)] (.object [] "treeMetaData" :: frames)) :=
    hin₂.close.append (Passes.fixed (a := ",\n") rfl rfl)
  have hclose : Passes s₄ "]\n" (.after (.arr ts)
      (.object [("comments", .arr cs)] "tokens" :: .object [] "treeMetaData" :: frames)) :=
    hin₄.close.append (.after_blank isBlank_line)
  exact (((((((((hopen.append h₁).append h₂).append hnext).append (.member_blank hinner)).append
    (.fixed rfl rfl)).append h₃).append h₄).append hclose).append (.after_blank hindent)).append
    (.fixed rfl rfl)

theorem reads_messageText (message : Option String) :
    Reads (messageText message) (valueOrNull .str message) := by
  cases message with
  | none => exact reads_nullText
  | some m => exact .of_passes fun frames => passes_quote m

theorem reads_documentText (hindent : IsBlank indent) {comments tokens : List String}
    {tree : String} {cs ts : List Value} {v : Value} (hcomments : List.Forall₂ Reads comments cs)
    (htokens : List.Forall₂ Reads tokens ts) (htree : Reads tree v) (message : Option String) :
    Reads (documentText indent (metadataText indent comments tokens) tree message)
      (documentValue cs ts v message) := .of_passes fun frames => by
  obtain ⟨s₁, h₁, hend₁⟩ := htree (.object
    [("treeMetaData", .obj [("comments", .arr cs), ("tokens", .arr ts)])] "tree" :: frames)
  obtain ⟨s₂, h₂, hend₂⟩ := hend₁.blank hindent
  obtain ⟨s₃, h₃, hend₃⟩ := reads_messageText message (.object
    [("treeMetaData", .obj [("comments", .arr cs), ("tokens", .arr ts)]), ("tree", v)] "error" ::
    frames)
  have hmetadata := (Passes.fixed (s := .value frames) (a := "\x7b \n") rfl rfl).append
    (passes_metadataText hindent hcomments htokens)
  exact ((((((((hmetadata.append (.member_blank hindent)).append (.fixed rfl rfl)).append h₁).append
    h₂).append (hend₂.passes (.fixed rfl rfl) rfl)).append (.member_blank hindent)).append
    (.fixed rfl rfl)).append h₃).append (hend₃.passes (.fixed rfl rfl) rfl)

end Documents

end LosslessGo
