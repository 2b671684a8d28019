import LosslessGo.Proofs.Document.Reads

/-!
# The content of comments

A comment is written with the text between its marks. The opening mark is looked at, and a comment without
one is refused. Of the closing mark of a block comment only the size is known: the last two bytes are left
out, whatever they are, and the program panics where they do not start with a character.

* `Token.content_cases`: a comment has content, has no marks, or is cut inside of a character.
* `commentContent_of_hasContent` and its neighbours: what comes of each of the three.
* `document_eq_error_iff`: the first comment that is not written decides what becomes of a document.
* `commentText_exact`: what is written of a comment, and when a document has all its comments.
* `commentText_unclosed`: comments that are cut short at their ends.
-/

namespace LosslessGo

open Json (Reads)

variable {t : Token} {n : Node} {content : String} {range : TextRange} {text : String}

/-! ## Marks -/

/-- A comment with neither mark, or a block comment that is too short for both of its marks. -/
structure Token.Unmarked (t : Token) : Prop where
  line : ∀ rest, t.text ≠ "//" ++ rest
  block : ∀ rest, t.text = "/*" ++ rest → rest.utf8ByteSize < 2

/-- A block comment that is long enough for its marks, but the last two bytes of which do not start with
a character: to cut them off is to cut inside of one. -/
def Token.SplitsCharacter (t : Token) : Prop :=
  ∃ rest, t.text = "/*" ++ rest ∧ 2 ≤ rest.utf8ByteSize ∧
    ¬String.Pos.Raw.IsValid t.text ⟨t.text.utf8ByteSize - 2⟩

theorem append_line_ne_append_block {rest rest' : String} : "//" ++ rest ≠ "/*" ++ rest' := by
  intro h
  have hmarks : "//" = "/*" := Text.eq_of_append_eq h rfl
  revert hmarks
  decide

theorem utf8ByteSize_block (rest : String) : ("/*" ++ rest).utf8ByteSize = 2 + rest.utf8ByteSize :=
  String.utf8ByteSize_append

/-! ## Content -/

section Block

variable {rest : String} (htext : t.text = "/*" ++ rest)

include htext

theorem not_spells_line : ¬Text.spells t.text 0 "//" = true := by
  intro hspells
  obtain ⟨rest', hrest⟩ := Text.exists_append_of_spells hspells
  exact append_line_ne_append_block (hrest.symm.trans htext)

theorem spells_block (hle : 2 ≤ rest.utf8ByteSize) :
    Text.spells t.text 0 "/*" = true ∧ 4 ≤ t.text.utf8ByteSize := by
  refine ⟨htext ▸ Text.spells_append "/*" rest, ?_⟩
  rw [htext, utf8ByteSize_block]
  omega

end Block

theorem commentContent_of_hasContent (h : t.HasContent content range) :
    commentContent t = .ok (content, range) := by
  unfold commentContent
  cases h with
  | line htext =>
    have hslice := Text.slice?_append "//" content ""
    rw [String.append_empty, ← htext] at hslice
    have hcontent : Text.slice t.text 2 t.text.utf8ByteSize = content := by
      rw [Text.slice]
      exact congrArg (Option.getD · "") hslice
    have hspells : Text.spells t.text 0 "//" = true := htext ▸ Text.spells_append "//" content
    simp only [hspells, if_true, hcontent]
  | @block last htext hlast =>
    have hmark : t.text = "/*" ++ (content ++ last) := by rw [htext, String.append_assoc]
    have hsize : t.text.utf8ByteSize = ("/*" ++ content).utf8ByteSize + 2 := by
      rw [htext, String.utf8ByteSize_append, hlast]
    have hle : 2 ≤ (content ++ last).utf8ByteSize := by
      rw [String.utf8ByteSize_append, hlast]
      exact Nat.le_add_left _ _
    have hslice := Text.slice?_append "/*" content last
    rw [← htext, show ("/*" ++ content).utf8ByteSize = t.text.utf8ByteSize - 2 by omega] at hslice
    have hcontent : Text.slice? t.text 2 (t.text.utf8ByteSize - 2) = some content := hslice
    rw [if_neg (not_spells_line hmark), if_pos (spells_block hmark hle), hcontent]

theorem commentContent_of_unmarked (h : t.Unmarked) :
    commentContent t = .error (.error (.comment t.text)) := by
  have hline : ¬Text.spells t.text 0 "//" = true := fun hspells => by
    obtain ⟨rest, hrest⟩ := Text.exists_append_of_spells hspells
    exact h.line rest hrest
  have hblock : ¬(Text.spells t.text 0 "/*" = true ∧ 4 ≤ t.text.utf8ByteSize) := by
    rintro ⟨hspells, hsize⟩
    obtain ⟨rest, hrest⟩ := Text.exists_append_of_spells hspells
    have hshort := h.block rest hrest
    rw [hrest, utf8ByteSize_block] at hsize
    omega
  unfold commentContent
  rw [if_neg hline, if_neg hblock]

theorem commentContent_of_splitsCharacter (h : t.SplitsCharacter) :
    commentContent t = .error .panic := by
  obtain ⟨rest, htext, hle, hsplit⟩ := h
  have hslice : Text.slice? t.text 2 (t.text.utf8ByteSize - 2) = none :=
    dif_neg fun hvalid => hsplit hvalid.2.2
  unfold commentContent
  rw [if_neg (not_spells_line htext), if_pos (spells_block htext hle), hslice]

/-- A block comment has content where its last two bytes start with a character. -/
theorem Token.exists_hasContent {rest : String} (htext : t.text = "/*" ++ rest)
    (hle : 2 ≤ rest.utf8ByteSize) (hvalid : String.Pos.Raw.IsValid t.text ⟨t.text.utf8ByteSize - 2⟩) :
    ∃ content range, t.HasContent content range := by
  have hsize : t.text.utf8ByteSize = 2 + rest.utf8ByteSize := by
    rw [htext, utf8ByteSize_block]
  obtain ⟨content, hcontent⟩ : ∃ content,
      Text.slice? t.text 2 (t.text.utf8ByteSize - 2) = some content := by
    have hstart : String.Pos.Raw.IsValid t.text ⟨2⟩ := by
      rw [htext]
      exact String.Pos.Raw.isValid_rawEndPos.append_right rest
    exact ⟨_, dif_pos ⟨by omega, hstart, hvalid⟩⟩
  obtain ⟨before, last, heq, hbefore, hstop⟩ := Text.exists_append_of_slice? hcontent
  obtain rfl : before = "/*" :=
    Text.eq_of_append_eq (by rw [← String.append_assoc, ← heq, htext]) hbefore
  have hlast : last.utf8ByteSize = 2 := by
    have htotal := congrArg String.utf8ByteSize heq
    rw [String.utf8ByteSize_append, hstop] at htotal
    omega
  exact ⟨content, _, .block heq hlast⟩

/-- A comment has content, has no marks, or is cut inside of a character. -/
theorem Token.content_cases (t : Token) :
    (∃ content range, t.HasContent content range) ∨ t.Unmarked ∨ t.SplitsCharacter := by
  by_cases hline : ∃ rest, t.text = "//" ++ rest
  · obtain ⟨rest, hrest⟩ := hline
    exact .inl ⟨rest, _, .line hrest⟩
  by_cases hshort : ∀ rest, t.text = "/*" ++ rest → rest.utf8ByteSize < 2
  · exact .inr (.inl ⟨fun rest hrest => hline ⟨rest, hrest⟩, hshort⟩)
  · push Not at hshort
    obtain ⟨rest, htext, hle⟩ := hshort
    by_cases hvalid : String.Pos.Raw.IsValid t.text ⟨t.text.utf8ByteSize - 2⟩
    · exact .inl (Token.exists_hasContent htext hle hvalid)
    · exact .inr (.inr ⟨rest, htext, hle, hvalid⟩)

/-- A comment without marks is an error, and no other comment is. -/
theorem commentContent_eq_error_iff {e : ConvertError} :
    commentContent t = .error (.error e) ↔ e = .comment t.text ∧ t.Unmarked := by
  constructor
  · intro h
    rcases t.content_cases with ⟨content, range, hcontent⟩ | hcontent | hcontent
    · rw [commentContent_of_hasContent hcontent] at h
      cases h
    · rw [commentContent_of_unmarked hcontent] at h
      cases h
      exact ⟨rfl, hcontent⟩
    · rw [commentContent_of_splitsCharacter hcontent] at h
      cases h
  · rintro ⟨rfl, h⟩
    exact commentContent_of_unmarked h

/-- A comment that is cut inside of a character is a panic, and no other comment is. -/
theorem commentContent_eq_panic_iff : commentContent t = .error .panic ↔ t.SplitsCharacter := by
  refine ⟨fun h => ?_, commentContent_of_splitsCharacter⟩
  rcases t.content_cases with ⟨content, range, hcontent⟩ | hcontent | hcontent
  · rw [commentContent_of_hasContent hcontent] at h
    cases h
  · rw [commentContent_of_unmarked hcontent] at h
    cases h
  · exact hcontent

/-! ## What is written -/

/-- A comment with content is written with it. -/
theorem exists_commentText (htoken : n.token = some t) (h : t.HasContent content range) :
    ∃ text, commentText n = .ok text ∧ Json.read text = some (t.commentValue content range) := by
  have hcontent := commentContent_of_hasContent h
  have hvalue : n.commentValue = t.commentValue content range := by
    simp [Node.commentValue, htoken, hcontent, Except.toOption]
  obtain ⟨text, htext⟩ : ∃ text, commentText n = .ok text := by
    simp only [commentText, htoken, hcontent]
    exact ⟨_, rfl⟩
  exact ⟨text, htext, hvalue ▸ (reads_commentText htext).read_eq.1⟩

/-- What is read of a written comment is its content. -/
theorem exists_hasContent_of_read (htoken : n.token = some t) (htext : commentText n = .ok text)
    (hread : Json.read text = some (t.commentValue content range)) :
    ∃ range', t.HasContent content range' := by
  obtain ⟨t', content', range', htoken', hcontent, hvalue⟩ := exists_content_of_commentText htext
  obtain rfl := Option.some.inj (htoken.symm.trans htoken')
  have hsame := (reads_commentText htext).read_eq.1.symm.trans hread
  rw [hvalue, Option.some.injEq] at hsame
  obtain rfl : content' = content := by
    simp only [Token.commentValue, Json.Value.obj.injEq, List.cons.injEq, Prod.mk.injEq,
      Json.Value.str.injEq] at hsame
    exact hsame.2.1.2
  exact ⟨range', hasContent_of_commentContent hcontent⟩

/-- A comment is not written for the reason that it has no content. -/
theorem commentText_eq_error_iff (htoken : n.token = some t) {fault : Fault} :
    commentText n = .error fault ↔ commentContent t = .error fault := by
  unfold commentText
  simp only [htoken]
  cases commentContent t with
  | error fault => simp
  | ok p => simp

/-- Only a comment that is cut inside of a character is a panic. -/
theorem commentText_eq_panic_iff :
    commentText n = .error .panic ↔ ∃ t, n.token = some t ∧ t.SplitsCharacter := by
  cases htoken : n.token with
  | none => simp [commentText, htoken]
  | some t => simp [commentText_eq_error_iff htoken, commentContent_eq_panic_iff]

/-! ## Documents -/

theorem exists_mapM_iff {α β ε : Type} {f : α → Except ε β} {xs : List α} :
    (∃ ys, xs.mapM f = .ok ys) ↔ ∀ x ∈ xs, ∃ y, f x = .ok y := by
  induction xs with
  | nil => exact iff_of_true ⟨[], rfl⟩ (by simp)
  | cons x xs ih =>
    rw [List.forall_mem_cons, ← ih, List.mapM_cons]
    cases f x with
    | error e => simp [bind, Except.bind]
    | ok y => cases xs.mapM f <;> simp [bind, Except.bind, pure, Except.pure]

/-- The first of some items with a property is the head, or one behind it. -/
theorem exists_append_cons_iff {α : Type} {p q : α → Prop} {x : α} {xs : List α} :
    (∃ before y after, x :: xs = before ++ y :: after ∧ (∀ z ∈ before, p z) ∧ q y) ↔
      q x ∨ p x ∧ ∃ before y after, xs = before ++ y :: after ∧ (∀ z ∈ before, p z) ∧ q y := by
  constructor
  · rintro ⟨before, y, after, heq, hbefore, hy⟩
    cases before with
    | nil =>
      obtain ⟨rfl, rfl⟩ := List.cons.inj heq
      exact .inl hy
    | cons z before =>
      obtain ⟨rfl, rfl⟩ := List.cons.inj heq
      obtain ⟨hx, hbefore⟩ := List.forall_mem_cons.mp hbefore
      exact .inr ⟨hx, before, y, after, rfl, hbefore, hy⟩
  · rintro (hx | ⟨hx, before, y, after, rfl, hbefore, hy⟩)
    · exact ⟨[], x, xs, rfl, by simp, hx⟩
    · exact ⟨x :: before, y, after, rfl, List.forall_mem_cons.mpr ⟨hx, hbefore⟩, hy⟩

/-- The first step that fails decides how a list of steps fails. -/
theorem mapM_eq_error_iff {α β ε : Type} {f : α → Except ε β} {xs : List α} {e : ε} :
    xs.mapM f = .error e ↔ ∃ before x after, xs = before ++ x :: after ∧
      (∀ y ∈ before, ∃ z, f y = .ok z) ∧ f x = .error e := by
  induction xs with
  | nil => simp [pure, Except.pure]
  | cons x xs ih =>
    rw [exists_append_cons_iff, ← ih, List.mapM_cons]
    cases f x with
    | error e' => simp [bind, Except.bind]
    | ok y => cases xs.mapM f <;> simp [bind, Except.bind, pure, Except.pure]

/-- There is a document where all comments have content. -/
theorem exists_document_iff {r : Converted} {indent : String} {message : Option String} :
    (∃ text, r.document indent message = .ok text) ↔
      ∀ i ∈ r.comments, ∃ text, commentText (r.tree.node i) = .ok text := by
  rw [← exists_mapM_iff, Converted.document]
  cases r.comments.mapM fun i => commentText (r.tree.node i) <;>
    simp [bind, Except.bind, pure, Except.pure]

/-- There is no document where a comment is not written. Of several such comments the first decides. -/
theorem document_eq_error_iff {r : Converted} {indent : String} {message : Option String}
    {fault : Fault} :
    r.document indent message = .error fault ↔ ∃ before i after, r.comments = before ++ i :: after ∧
      (∀ j ∈ before, ∃ text, commentText (r.tree.node j) = .ok text) ∧
      commentText (r.tree.node i) = .error fault := by
  rw [← mapM_eq_error_iff, Converted.document]
  cases r.comments.mapM fun i => commentText (r.tree.node i) <;>
    simp [bind, Except.bind, pure, Except.pure]

/-- A comment is written with the text behind `//`, or with the text behind `/*` but for two bytes, which
need not be the closing mark. A comment without marks is refused, and to write one of which the two bytes
split a character is a panic. There is a document where all comments are written, and otherwise the first
that is not decides between error and panic. -/
theorem commentText_exact (htoken : n.token = some t) :
    (∀ content, (∃ text range, commentText n = .ok text ∧
        Json.read text = some (t.commentValue content range)) ↔
      t.text = "//" ++ content ∨
        ∃ last, t.text = "/*" ++ content ++ last ∧ last.utf8ByteSize = 2) ∧
    (∀ e, commentText n = .error (.error e) ↔ e = .comment t.text ∧ t.Unmarked) ∧
    (commentText n = .error .panic ↔ t.SplitsCharacter) ∧
    ∀ (r : Converted) indent message,
      ((∃ text, r.document indent message = .ok text) ↔
        ∀ i ∈ r.comments, ∃ text, commentText (r.tree.node i) = .ok text) ∧
      ∀ fault, r.document indent message = .error fault ↔
        ∃ before i after, r.comments = before ++ i :: after ∧
          (∀ j ∈ before, ∃ text, commentText (r.tree.node j) = .ok text) ∧
          commentText (r.tree.node i) = .error fault := by
  refine ⟨fun content => ⟨?_, ?_⟩, fun e => ?_, ?_, fun r indent message =>
    ⟨exists_document_iff, fun fault => document_eq_error_iff⟩⟩
  · rintro ⟨text, range, htext, hread⟩
    obtain ⟨range', hcontent⟩ := exists_hasContent_of_read htoken htext hread
    cases hcontent with
    | line h => exact .inl h
    | @block last h hlast => exact .inr ⟨last, h, hlast⟩
  · rintro (h | ⟨last, h, hlast⟩)
    · obtain ⟨text, htext⟩ := exists_commentText htoken (.line h)
      exact ⟨text, _, htext⟩
    · obtain ⟨text, htext⟩ := exists_commentText htoken (.block h hlast)
      exact ⟨text, _, htext⟩
  · rw [commentText_eq_error_iff htoken, commentContent_eq_error_iff]
  · rw [commentText_eq_error_iff htoken, commentContent_eq_panic_iff]

/-- A file that holds a comment and nothing else. -/
def remarkFile (text : String) : Go.File := ⟨0, ⟨8, "p", none⟩, [], [[⟨10, text⟩]]⟩

/-- The source of `remarkFile`. -/
def remarkSource (text : String) : SourceFile := .ofText "m.go" ("package p\n" ++ text)

theorem exists_of_toOption_any {ε α : Type} {x : Except ε α} {p : α → Prop} [DecidablePred p]
    (h : x.toOption.any (p ·) = true) : ∃ a, x = .ok a ∧ p a := by
  cases x with
  | error e => cases h
  | ok a => exact ⟨a, rfl, of_decide_eq_true h⟩

theorem commentText_exact_remark :
    ∃ r t text range,
      convertFile (remarkFile "/* é */") (remarkSource "/* é */") .empty ⟨true, false⟩ = .ok r ∧
      r.comments = [0] ∧ (r.tree.node 0).token = some t ∧ t.text = "/*" ++ " é " ++ "*/" ∧
      commentText (r.tree.node 0) = .ok text ∧
      Json.read text = some (t.commentValue " é " range) := by
  have hrun : (convertFile (remarkFile "/* é */") (remarkSource "/* é */") .empty
      ⟨true, false⟩).toOption.any (fun r => r.comments = [0] ∧
        (r.tree.node 0).token = some ⟨"/* é */", ⟨2, 0, 2, 7⟩, .comment⟩) = true := by
    decide +kernel
  obtain ⟨r, hr, hcomments, htoken⟩ := exists_of_toOption_any hrun
  obtain ⟨text, range, htext, hread⟩ :=
    ((commentText_exact htoken).1 " é ").mpr (.inr ⟨"*/", by decide, by decide⟩)
  exact ⟨r, _, text, range, hr, hcomments, htoken, by decide, htext, hread⟩

/-- A comment that is not closed may be written with a content that is not what is between its marks, and
to write another one is a panic, which leaves no document. Both are leaves of converted files. -/
theorem commentText_unclosed :
    (∃ r t text range,
      convertFile (remarkFile "/* ab") (remarkSource "/* ab") .empty ⟨true, false⟩ = .ok r ∧
      r.comments = [0] ∧ (r.tree.node 0).token = some t ∧ commentText (r.tree.node 0) = .ok text ∧
      Json.read text = some (t.commentValue " " range) ∧
      t.text ≠ "//" ++ " " ∧ t.text ≠ "/*" ++ " " ++ "*/") ∧
    ∃ r t,
      convertFile (remarkFile "/*€") (remarkSource "/*€") .empty ⟨true, false⟩ = .ok r ∧
      r.comments = [0] ∧ (r.tree.node 0).token = some t ∧ t.text = "/*" ++ "€" ∧
      commentText (r.tree.node 0) = .error .panic ∧
      ∀ indent message, r.document indent message = .error .panic := by
  constructor
  · have hrun : (convertFile (remarkFile "/* ab") (remarkSource "/* ab") .empty
        ⟨true, false⟩).toOption.any (fun r => r.comments = [0] ∧
          (r.tree.node 0).token = some ⟨"/* ab", ⟨2, 0, 2, 5⟩, .comment⟩) = true := by
      decide +kernel
    obtain ⟨r, hr, hcomments, htoken⟩ := exists_of_toOption_any hrun
    have hcontent : Token.HasContent ⟨"/* ab", ⟨2, 0, 2, 5⟩, .comment⟩ " " ⟨2, 2, 2, 3⟩ :=
      .block (by decide : "/* ab" = "/*" ++ " " ++ "ab") (by decide)
    obtain ⟨text, htext, hread⟩ := exists_commentText htoken hcontent
    exact ⟨r, _, text, _, hr, hcomments, htoken, htext, hread, by decide, by decide⟩
  · have hrun : (convertFile (remarkFile "/*€") (remarkSource "/*€") .empty
        ⟨true, false⟩).toOption.any (fun r => r.comments = [0] ∧
          (r.tree.node 0).token = some ⟨"/*€", ⟨2, 0, 2, 3⟩, .comment⟩) = true := by
      decide +kernel
    obtain ⟨r, hr, hcomments, htoken⟩ := exists_of_toOption_any hrun
    have hpanic : commentText (r.tree.node 0) = .error .panic :=
      commentText_eq_panic_iff.mpr ⟨_, htoken, "€", by decide, by decide, by decide⟩
    refine ⟨r, _, hr, hcomments, htoken, by decide, hpanic, fun indent message => ?_⟩
    exact document_eq_error_iff.mpr ⟨[], 0, [], hcomments, by simp, hpanic⟩

end LosslessGo
