import LosslessGo.Proofs.Convert.Ownership
import LosslessGo.Proofs.Document.Comments
import LosslessGo.Proofs.Draft.Placed
import LosslessGo.Proofs.Text.Positions

/-!
# Where the content of a comment is

The range of a comment's content is made from the range of the comment, by columns: two further at the
start, and two back at the end of a block comment. As both marks are of characters of one byte, these are
the positions in the file behind the opening mark and before the closing one.

* `Node.Placed.showsContent`: so it is of any leaf that has its place.
* `comments_showContent`: so it is of the leaves of comments, when they are made and when a file has been
  converted.
-/

namespace LosslessGo

open Text (bytes)

variable {set : Setting} {d d' : Draft} {n : Node} {t : Token}

/-- The comment is written with `content`, and its range is from offset `a` to offset `b`. -/
def Node.WritesContent (source : SourceFile) (n : Node) (t : Token) (content : String) (a b : Nat) :
    Prop :=
  ∃ text start stop, commentText n = .ok text ∧ source.lines.position? a = some start ∧
    source.lines.position? b = some stop ∧
    Json.read text = some (t.commentValue content ⟨start.1, start.2, stop.1, stop.2⟩)

/-- A comment with its marks is written with the content between them, and with the positions of the
content in the file. -/
structure Node.ShowsContent (source : SourceFile) (n : Node) (t : Token) : Prop where
  line : ∀ content, t.text = "//" ++ content →
    n.WritesContent source t content (n.offset + 2) n.stop
  block : ∀ content, t.text = "/*" ++ content ++ "*/" →
    n.WritesContent source t content (n.offset + 2) (n.stop - 2) ∧ 2 ≤ t.range.endColumn

theorem plain_marks : ∀ mark ∈ ["//", "/*", "*/"], ∀ b ∈ bytes mark,
    b ≠ Text.lineFeed ∧ LineMap.startsColumn b = true := by
  decide +kernel

/-- The position behind the opening mark. -/
theorem Node.Placed.position?_start (h : n.Placed set) (htoken : n.token = some t) {mark rest : String}
    (hmark : mark ∈ ["//", "/*", "*/"]) (hsize : mark.utf8ByteSize = 2) (htext : t.text = mark ++ rest) :
    set.file.lines.position? (n.offset + 2) = some (n.range.startLine, n.range.startColumn + 2) := by
  obtain ⟨-, hslice, -⟩ := h.leaf t htoken
  obtain ⟨before, after, hsource, hoffset, -⟩ := Text.exists_append_of_slice? hslice
  have hsplit : set.file.text = before ++ mark ++ (rest ++ after) := by
    rw [show set.file.text = before ++ t.text ++ after from hsource, htext]
    simp only [String.append_assoc]
  have hstart := h.start_eq
  rw [← hoffset] at hstart ⊢
  have hposition := set.file.lines.position?_append hsplit (plain_marks mark hmark) hstart
  rwa [String.utf8ByteSize_append, hsize] at hposition

/-- The position before the closing mark, two columns before the end. -/
theorem Node.Placed.position?_stop (h : n.Placed set) (htoken : n.token = some t) {content : String}
    (htext : t.text = "/*" ++ content ++ "*/") :
    2 ≤ n.range.endColumn ∧
      set.file.lines.position? (n.stop - 2) = some (n.range.endLine, n.range.endColumn - 2) := by
  obtain ⟨-, hslice, -⟩ := h.leaf t htoken
  obtain ⟨before, after, hsource, -, hstop⟩ := Text.exists_append_of_slice? hslice
  have hsplit : set.file.text = before ++ ("/*" ++ content) ++ "*/" ++ after := by
    rw [show set.file.text = before ++ t.text ++ after from hsource, htext]
    simp only [String.append_assoc]
  have hstop' : n.stop = (before ++ ("/*" ++ content) ++ "*/").utf8ByteSize := by
    rw [← hstop, htext]
    simp only [String.append_assoc]
  have hinner : n.stop - 2 = (before ++ ("/*" ++ content)).utf8ByteSize := by
    rw [hstop', String.utf8ByteSize_append, show "*/".utf8ByteSize = 2 by decide, Nat.add_sub_cancel]
  obtain ⟨p, hp⟩ : ∃ p, set.file.lines.position? (before ++ ("/*" ++ content)).utf8ByteSize = some p := by
    rw [← Option.ne_none_iff_exists', ne_eq, LineMap.position?_eq_none, ← hinner]
    have hle : n.stop ≤ set.file.text.utf8ByteSize := h.stop_le
    omega
  have hend := set.file.lines.position?_append hsplit (plain_marks "*/" (by simp)) hp
  rw [← hstop', h.end_eq, Option.some.injEq, Prod.mk.injEq] at hend
  have hcolumn : n.range.endColumn = p.2 + 2 := hend.2
  rw [hinner, hp, hend.1, hcolumn]
  exact ⟨Nat.le_add_left _ _, rfl⟩

theorem Node.Placed.showsContent (h : n.Placed set) (htoken : n.token = some t) :
    n.ShowsContent set.file t := by
  obtain ⟨-, -, hrange, -⟩ := h.leaf t htoken
  constructor
  · intro content htext
    obtain ⟨text, hok, hread⟩ := exists_commentText htoken (.line htext)
    refine ⟨text, _, _, hok, h.position?_start htoken (by simp) rfl htext, h.end_eq, ?_⟩
    rw [hread, hrange]
  · intro content htext
    obtain ⟨hle, hstop⟩ := h.position?_stop htoken htext
    have hmark : t.text = "/*" ++ (content ++ "*/") := by rw [htext, String.append_assoc]
    obtain ⟨text, hok, hread⟩ := exists_commentText htoken (.block htext rfl)
    refine ⟨⟨text, _, _, hok, h.position?_start htoken (by simp) rfl hmark, hstop, ?_⟩, ?_⟩
    · rw [hread, hrange]
    · rwa [hrange]

/-! ## The leaves of comments -/

/-- The nodes that are new since `d` are leaves that have their places. -/
def Draft.AddsLeaves (set : Setting) (d d' : Draft) : Prop :=
  ∀ i, d.Adds d' i → (d'.tree.node i).Placed set ∧ (d'.tree.node i).isLeaf = true

theorem Draft.AddsLeaves.leafClosed : Draft.LeafClosed set (d.AddsLeaves set) := by
  intro d' n offset stop kind type fields hn h i hi
  have hlt : i < (d'.tree.push n).size := hi.2
  rw [Tree.size_push] at hlt
  by_cases hold : i < d'.tree.size
  · have hnode : (d'.add n).tree.node i = d'.tree.node i := Tree.node_push_of_lt hold
    rw [hnode]
    exact h i ⟨hi.1, hold⟩
  · obtain rfl : i = d'.tree.size := by omega
    have hnode : (d'.add n).tree.node d'.tree.size = n := Tree.node_push_size
    rw [hnode]
    exact ⟨placed_of_leafNode? hn, (isLeafOver_of_leafNode? hn).isLeaf⟩

theorem Build.comments_addsLeaves (set : Setting) (cs : List Go.Comment) (d : Draft) :
    d.AddsLeaves set (stateAfter (Build.comments set cs) d) := by
  have hnone : d.AddsLeaves set d := fun i hi => absurd hi.2 (Nat.not_lt.mpr hi.1)
  exact Draft.AddsLeaves.leafClosed.comments (fun h => h) cs hnone

theorem Draft.AddsLeaves.showContent {i : NodeId} (h : d.AddsLeaves set d') (hi : d.Adds d' i) :
    ∃ t, (d'.tree.node i).token = some t ∧ (d'.tree.node i).ShowsContent set.file t := by
  obtain ⟨hplaced, hleaf⟩ := h i hi
  obtain ⟨t, htoken⟩ := Option.isSome_iff_exists.mp hleaf
  exact ⟨t, htoken, hplaced.showsContent htoken⟩

/-- The comments of a file are the nodes that are made first, and they stay as they were made. -/
theorem of_mem_comments {file : Go.File} {source : SourceFile} {symbols : SymbolTable}
    {options : ConvertOptions} {r : Converted}
    (h : convertFile file source symbols options = .ok r) {i : NodeId} (hi : i ∈ r.comments) :
    ∃ d, Build.comments ⟨source, options.strict⟩ file.comments.flatten .empty = .ok () d ∧
      Draft.empty.Adds d i ∧ r.tree.node i = d.tree.node i := by
  unfold convertFile at h
  split at h
  · rename_i x d' hd'
    cases h
    obtain ⟨d, hrun, hd, hx⟩ := buildFile_owns x d' hd'
    have hg := hx.owns.grows
    have hlt : i < d.tree.size := by
      have hmem : i ∈ d'.comments.toList := hi
      rw [hg.comments_eq, hd.comments_eq] at hmem
      exact List.mem_range.mp hmem
    exact ⟨d, hrun, ⟨Nat.zero_le i, hlt⟩, hg.tree.node_eq i hlt⟩
  · cases h

/-- However the leaves of comments are made, and in every converted file, a comment with its marks is
written with the content between them and with the positions of the content in the file. -/
theorem comments_showContent (source : SourceFile) (strict : Bool) :
    (∀ cs d i, d.Adds (stateAfter (Build.comments ⟨source, strict⟩ cs) d) i →
      ∃ t, ((stateAfter (Build.comments ⟨source, strict⟩ cs) d).tree.node i).token = some t ∧
        ((stateAfter (Build.comments ⟨source, strict⟩ cs) d).tree.node i).ShowsContent source t) ∧
    ∀ file symbols describe r, convertFile file source symbols ⟨strict, describe⟩ = .ok r →
      ∀ i ∈ r.comments, ∃ t, (r.tree.node i).token = some t ∧ (r.tree.node i).ShowsContent source t := by
  have hleaves (cs d) := Build.comments_addsLeaves ⟨source, strict⟩ cs d
  refine ⟨fun cs d i hi => (hleaves cs d).showContent hi, fun file symbols describe r hr i hi => ?_⟩
  obtain ⟨d, hrun, hadds, hnode⟩ := of_mem_comments hr hi
  have hd := hleaves file.comments.flatten .empty
  rw [stateAfter, hrun] at hd
  rw [hnode]
  exact hd.showContent hadds

/-- A comment of two lines, with a carriage return that the source has and the syntax tree has not. -/
theorem comments_showContent_remark :
    ∃ r t,
      convertFile (remarkFile "/* é\n€ */") (remarkSource "/* é\r\n€ */") .empty ⟨true, false⟩ = .ok r ∧
      r.comments = [0] ∧ (r.tree.node 0).token = some t ∧ t.text = "/*" ++ " é\r\n€ " ++ "*/" ∧
      (r.tree.node 0).WritesContent (remarkSource "/* é\r\n€ */") t " é\r\n€ " 12 21 := by
  have hrun : (convertFile (remarkFile "/* é\n€ */") (remarkSource "/* é\r\n€ */") .empty
      ⟨true, false⟩).toOption.any (fun r => r.comments = [0] ∧
        (r.tree.node 0).token = some ⟨"/* é\r\n€ */", ⟨2, 0, 3, 4⟩, .comment⟩ ∧
        (r.tree.node 0).offset = 10 ∧ (r.tree.node 0).stop = 23) = true := by
    decide +kernel
  obtain ⟨r, hr, hcomments, htoken, hoffset, hstop⟩ := exists_of_toOption_any hrun
  obtain ⟨t, ht, hshows⟩ :=
    (comments_showContent (remarkSource "/* é\r\n€ */") true).2 _ _ _ r hr 0 (by simp [hcomments])
  obtain rfl := Option.some.inj (htoken.symm.trans ht)
  have hwrites := (hshows.block " é\r\n€ " (by decide)).1
  rw [hoffset, hstop] at hwrites
  exact ⟨r, _, hr, hcomments, htoken, by decide, hwrites⟩

end LosslessGo
