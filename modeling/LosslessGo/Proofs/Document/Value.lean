import LosslessGo.Document.File
import LosslessGo.Proofs.Text.Slices
import LosslessGo.Proofs.Tree.Refs

/-!
# What a document says

The document of a file as a JSON value, apart from its layout: no line break, no indent.

* `Tree.value`: a node with all nodes that its fields refer to.
* `Node.commentValue`, `Node.tokenValue`: a comment and a token.
* `Converted.value`, `failureValue`: whole documents.
-/

namespace LosslessGo

open Json (Value)

namespace Flow

/-- Numbers as an array, none of them as `null`. -/
def numbersValue (ns : List Int) : Value := if ns.isEmpty then .null else .arr (ns.map .int)

def GraphBlock.value (b : GraphBlock) : Value :=
  .obj [("Node", numbersValue b.ids), ("Successors", numbersValue b.successors)]

def Graph.value (g : Graph) : Value := .obj [("Blocks", .arr (g.blocks.map (·.value)))]

end Flow

/-- A value, or `null` where it is absent. -/
def valueOrNull {α : Type} (value : α → Value) (x : Option α) : Value := (x.map value).getD .null

def TextRange.value (r : TextRange) : Value := .str r.text

/-- The value of a field, where `below` has the values of nodes. There is none for a field that
documents leave out. -/
def FieldValue.value? (below : NodeId → Value) : FieldValue → Option Value
  | .node x => some (valueOrNull below x)
  | .nodes xs => some (.arr (xs.map below))
  | .range r => some (valueOrNull TextRange.value r)
  | .str s => some (.str s)
  | .int n => some (.int n)
  | .bool b => some (.bool b)
  | .strings ss => some (.arr (ss.map .str))
  | .graph g => some (valueOrNull Flow.Graph.value g)
  | .null => some .null
  | .suppressed => none

/-- A field as a member of an object. -/
def memberOf (below : NodeId → Value) (e : String × FieldValue) : Option (String × Value) :=
  (e.2.value? below).map fun v => (e.1, v)

/-- A node: its type and range, then its fields in descending order of the names. -/
def Node.value (below : NodeId → Value) (n : Node) : Value :=
  .obj (("@type", .str n.type.name) :: ("metaData", n.range.value) ::
    n.fields.entries.reverse.filterMap (memberOf below))

theorem FieldValue.value?_congr {f g : NodeId → Value} {v : FieldValue}
    (h : ∀ c ∈ v.refs, f c = g c) : v.value? f = v.value? g := by
  cases v with
  | node x =>
    cases x with
    | none => rfl
    | some c => simp [value?, valueOrNull, h c (by simp [refs])]
  | nodes xs => exact congrArg (fun vs => some (Value.arr vs)) (List.map_congr_left h)
  | _ => rfl

/-- What a node says depends on what the nodes say that it refers to. -/
theorem Node.value_congr {f g : NodeId → Value} {n : Node} (h : ∀ c ∈ n.refs, f c = g c) :
    n.value f = n.value g := by
  have hmember : ∀ e ∈ n.fields.entries.reverse, memberOf f e = memberOf g e := by
    intro e he
    rw [memberOf, FieldValue.value?_congr, memberOf]
    exact fun c hc => h c (List.mem_flatMap.mpr ⟨e, List.mem_reverse.mp he, hc⟩)
  rw [value, List.filterMap_congr hmember, value]

/-- The node at place `i`. References are followed to older nodes, and in a converted file there are no
others. -/
def Tree.value (t : Tree) (i : NodeId) : Value :=
  (t.node i).value fun c => if _h : c < i then t.value c else .null
termination_by i

/-- What a comment holds between its marks, and where: up to its end behind `//`, and without its last
two bytes behind `/*`. -/
inductive Token.HasContent (t : Token) : String → TextRange → Prop where
  | line {content : String} (h : t.text = "//" ++ content) :
    HasContent t content { t.range with startColumn := t.range.startColumn + 2 }
  | block {content last : String} (h : t.text = "/*" ++ content ++ last)
    (hlast : last.utf8ByteSize = 2) :
    HasContent t content
      { t.range with startColumn := t.range.startColumn + 2, endColumn := t.range.endColumn - 2 }

theorem hasContent_of_commentContent {t : Token} {content : String} {range : TextRange}
    (h : commentContent t = .ok (content, range)) : t.HasContent content range := by
  unfold commentContent at h
  dsimp only at h
  split at h
  · rename_i hspells
    obtain ⟨rest, hrest⟩ := Text.exists_append_of_spells hspells
    have hslice : Text.slice t.text 2 t.text.utf8ByteSize = rest := by
      have hpart := Text.slice?_append (u := rest) "//" ""
      rw [String.append_empty, ← hrest] at hpart
      rw [Text.slice]
      exact congrArg (Option.getD · "") hpart
    cases h
    rw [hslice]
    exact .line hrest
  · split at h
    · rename_i hblock
      cases hpart : Text.slice? t.text 2 (t.text.utf8ByteSize - 2) with
      | none =>
        rw [hpart] at h
        cases h
      | some s =>
        rw [hpart] at h
        cases h
        obtain ⟨rest, hrest⟩ := Text.exists_append_of_spells hblock.1
        obtain ⟨before, last, heq, hbefore, hsize⟩ := Text.exists_append_of_slice? hpart
        obtain rfl : before = "/*" := Text.eq_of_append_eq (by rw [← String.append_assoc, ← heq, hrest]) hbefore
        refine .block heq ?_
        have htotal := congrArg String.utf8ByteSize heq
        rw [String.utf8ByteSize_append, hsize] at htotal
        omega
    · cases h

/-- A comment with its content. -/
def Token.commentValue (t : Token) (content : String) (range : TextRange) : Value :=
  .obj [("text", .str t.text), ("contentText", .str content), ("range", t.range.value),
    ("contentRange", range.value)]

/-- A comment. There is no document where it has no content. -/
def Node.commentValue (n : Node) : Value :=
  match n.token.bind fun t => (commentContent t).toOption.map (t, ·) with
  | none => .null
  | some (t, content, range) => t.commentValue content range

/-- The node is a comment, and its value gives what it holds between its marks. -/
def Node.GivesContent (n : Node) : Prop :=
  ∃ t content range, n.token = some t ∧ t.HasContent content range ∧
    n.commentValue = t.commentValue content range

/-- A token. Its kind is left out where it is `OTHER`. -/
def Node.tokenValue (n : Node) : Value :=
  match n.token with
  | none => .null
  | some t =>
    .obj ([("text", .str t.text), ("textRange", t.range.value)] ++
      if t.kind = .other then [] else [("type", .str t.kind.name)])

/-- A document from its parts. -/
def documentValue (comments tokens : List Value) (tree : Value) (message : Option String) : Value :=
  .obj [("treeMetaData", .obj [("comments", .arr comments), ("tokens", .arr tokens)]),
    ("tree", tree), ("error", valueOrNull .str message)]

/-- The document of a converted file. -/
def Converted.value (r : Converted) (message : Option String) : Value :=
  documentValue (r.comments.map fun i => (r.tree.node i).commentValue)
    (r.tokens.map fun i => (r.tree.node i).tokenValue) (valueOrNull r.tree.value r.root) message

/-- The document of a file without a tree. -/
def failureValue (message : String) : Value := documentValue [] [] .null (some message)

end LosslessGo
