import LosslessGo.Convert
import LosslessGo.Proofs.Draft.Expected
import LosslessGo.Proofs.Plan.OfSyntax
import LosslessGo.Proofs.Plan.Owns
import LosslessGo.Proofs.Plan.Parts

/-!
# The statements of a block

The field of a block takes the visible children between the first child and the last, whichever they
are (`FieldPlan.interior`). A brace that the source does not show makes no child, so that a statement
stands at its end of the block, and is left out.

* `filter_between`: what the children in between keep of some of the parts.
* `Plan.ofBlock_shows`: what a block shows of its statements, and when it shows them all.
* `convertFile_unshown`: a file in lenient mode with a block that does not show its only statement.
-/

namespace LosslessGo

open scoped List

variable {set : Setting} {d d' : Draft} {f : Filling} {k : Nat} {xs cs : List NodeId}

/-! ## Ends of a list -/

section Ends

variable {α : Type} {p : α → Bool} {ys zs : List α} {y : α}

theorem filter_tail (h : ys.head? = some y) :
    ys.tail.filter p = if p y then (ys.filter p).tail else ys.filter p := by
  obtain ⟨zs, rfl⟩ := List.head?_eq_some_iff.mp h
  rw [List.tail_cons, List.filter_cons]
  split <;> rfl

theorem filter_dropLast (h : ys.getLast? = some y) :
    ys.dropLast.filter p = if p y then (ys.filter p).dropLast else ys.filter p := by
  obtain ⟨zs, rfl⟩ := List.getLast?_eq_some_iff.mp h
  rw [List.dropLast_concat, List.filter_append, List.filter_singleton]
  cases p y <;> simp

/-- Of a list with some items in order, and each of them once, just these are the items with the
property of being among them. -/
theorem filter_mem_eq [DecidableEq α] (h : zs <+ ys) (hnodup : (ys.filter (· ∈ zs)).Nodup) :
    ys.filter (· ∈ zs) = zs := by
  have hsub : zs <+ ys.filter (· ∈ zs) := by
    have hself : zs.filter (· ∈ zs) = zs := List.filter_eq_self.mpr fun z hz => decide_eq_true hz
    have hfilter := h.filter (· ∈ zs)
    rwa [hself] at hfilter
  have hback : ys.filter (· ∈ zs) <+~ zs :=
    hnodup.subperm fun z hz => of_decide_eq_true (List.mem_filter.mp hz).2
  exact (hsub.eq_of_length_le hback.length_le).symm

end Ends

/-! ## Children in between -/

/-- Those of the nodes `ys` that stand neither first nor last behind `left` and before `right`. -/
def shownBetween (left right : Option NodeId) (ys : List NodeId) : List NodeId :=
  let rest := if left.isSome then ys else ys.tail
  if right.isSome then rest else rest.dropLast

variable {left right : Option NodeId} {ys : List NodeId}

/-- All of them are between two nodes. -/
theorem shownBetween_eq_self_iff :
    shownBetween left right ys = ys ↔ ys = [] ∨ left.isSome ∧ right.isSome := by
  have hlength : (shownBetween left right ys).length =
      ys.length - (if left.isSome then 0 else 1) - if right.isSome then 0 else 1 := by
    cases left <;> cases right <;> simp [shownBetween]
  constructor
  · intro h
    rw [h] at hlength
    cases ys with
    | nil => exact .inl rfl
    | cons y ys =>
      rw [List.length_cons] at hlength
      refine .inr ⟨?_, ?_⟩ <;> by_contra hnone <;> rw [if_neg hnone] at hlength <;> omega
  · rintro (rfl | ⟨hleft, hright⟩)
    · cases left <;> cases right <;> rfl
    · simp [shownBetween, hleft, hright]

/-- What the list between the first item and the last keeps of `ys`. -/
theorem filter_between (hhead : cs.head? = (left.toList ++ ys ++ right.toList).head?)
    (hlast : cs.getLast? = (left.toList ++ ys ++ right.toList).getLast?)
    (hfilter : cs.filter (· ∈ ys) = ys) (hleft : ∀ i ∈ left, i ∉ ys) (hright : ∀ i ∈ right, i ∉ ys) :
    (between cs).filter (· ∈ ys) = shownBetween left right ys := by
  have htail : cs.tail.filter (· ∈ ys) = if left.isSome then ys else ys.tail := by
    cases left with
    | some i =>
      rw [filter_tail hhead, if_neg (by simpa using hleft i rfl), hfilter]
      rfl
    | none =>
      cases ys with
      | nil => simp
      | cons y ys =>
        rw [filter_tail hhead, if_pos (by simp), hfilter]
        rfl
  rw [between, shownBetween, ← htail]
  cases hcs : cs.tail with
  | nil => simp
  | cons c rest =>
    have hlast' : (c :: rest).getLast? = cs.getLast? := by
      obtain ⟨b, rfl⟩ : ∃ b, cs = b :: c :: rest := by
        cases cs with
        | nil => cases hcs
        | cons b cs => exact ⟨b, congrArg (b :: ·) hcs⟩
      rfl
    rw [hlast] at hlast'
    cases right with
    | some i =>
      rw [Option.toList_some, List.getLast?_concat] at hlast'
      rw [filter_dropLast hlast', if_neg (by simpa using hright i rfl)]
      rfl
    | none =>
      rcases List.eq_nil_or_concat' ys with rfl | ⟨ys, y, rfl⟩
      · simp
      · rw [Option.toList_none, List.append_nil, ← List.append_assoc, List.getLast?_concat] at hlast'
        rw [filter_dropLast hlast', if_pos (by simp)]
        rfl

/-! ## Blocks -/

/-- The parts of a block. -/
def Go.Block.parts (facts : Facts) (b : Go.Block) : List Part :=
  [⟨"Lbrace", "Lbrace", .lexeme b.lbrace .lbrace⟩] ++ itemParts "List" (Plan.ofStmts facts b.stmts) ++
    [⟨"Rbrace", "Rbrace", .lexeme b.rbrace .rbrace⟩]

variable {facts : Facts} {b : Go.Block} {made : Made} {label : String} {i : NodeId}

namespace Made

theorem parts_append (new : Made) (tag : String) :
    parts (made ++ new) tag = parts made tag ++ parts new tag := List.filterMap_append

/-- Parts with one tag. -/
theorem parts_of_tags {tag : String} (h : ∀ e ∈ made, e.1 = tag) : parts made tag = nodes made := by
  induction made with
  | nil => rfl
  | cons e made ih =>
    obtain ⟨he, hmade⟩ := List.forall_mem_cons.mp h
    rw [parts_cons, if_pos he, ih hmade, nodes_cons]

end Made

/-- What is made of the parts of a block: its left brace, its statements and its right brace. -/
theorem PartsMade.of_block (h : PartsMade set d (b.parts facts) made d') (hd : d.HasComments) :
    made.nodes = (made.part "Lbrace").toList ++ made.parts "List" ++ (made.part "Rbrace").toList ∧
      (∀ e ∈ made, e.1 ≠ endTag) ∧
      (set.strict = true → (made.part "Lbrace").isSome ∧ (made.part "Rbrace").isSome) := by
  obtain ⟨new, last, rfl, hnew, hlast⟩ := h.of_append hd
  obtain ⟨first, items, rfl, hfirst, hitems⟩ := hnew.of_append hd
  obtain ⟨x, rfl, hx⟩ := hfirst.of_singleton
  obtain ⟨y, rfl, hy⟩ := hlast.of_singleton
  have htag : ∀ e ∈ items, e.1 = "List" := by
    intro e he
    have hmem : e.1 ∈ (itemParts "List" (Plan.ofStmts facts b.stmts)).map (·.tag) :=
      hitems.tags_eq ▸ List.mem_map_of_mem he
    obtain ⟨part, hpart, htag⟩ := List.mem_map.mp hmem
    exact htag ▸ tag_of_mem_itemParts hpart
  have hlookup : items.lookup "Rbrace" = none := by
    refine List.lookup_eq_none_iff.mpr fun e he => ?_
    simp [htag e he]
  have hleft : Made.part ([("Lbrace", x)] ++ items ++ [("Rbrace", y)]) "Lbrace" = x := rfl
  have hright : Made.part ([("Lbrace", x)] ++ items ++ [("Rbrace", y)]) "Rbrace" = y := by
    rw [Made.part, List.lookup_append, List.lookup_append, hlookup]
    rfl
  have hparts : Made.parts ([("Lbrace", x)] ++ items ++ [("Rbrace", y)]) "List" = items.nodes := by
    rw [Made.parts_append, Made.parts_append, Made.parts_of_tags htag]
    exact List.append_nil _
  rw [hleft, hright, hparts]
  refine ⟨?_, ?_, fun hstrict => ⟨?_, ?_⟩⟩
  · rw [Made.nodes_append, Made.nodes_append, Made.nodes_singleton, Made.nodes_singleton]
  · intro e he
    simp only [List.mem_append, List.mem_singleton] at he
    rcases he with (rfl | he) | rfl
    · simp
    · simp [htag e he]
    · simp
  · exact Option.isSome_iff_exists.mpr ((Plan.IsSure.leaf ..).built hstrict hx)
  · exact Option.isSome_iff_exists.mpr ((Plan.IsSure.leaf ..).built hstrict hy)

/-- The nodes made for parts are visible, and each is a child once. -/
theorem Filling.Gathered.once (h : f.Gathered k made) (howns : d.Owns k f.children.toList f.draft)
    (hlaid : f.Laid set d made.nodes) (htags : ∀ e ∈ made, e.1 ≠ endTag) :
    (∀ i ∈ made.nodes, (f.draft.tree.node i).isVisible = true) ∧ made.nodes.Nodup ∧
      ∀ ys, ys <+ made.nodes → f.children.toList.filter (· ∈ ys) = ys := by
  have hvisible : ∀ i ∈ made.nodes, (f.draft.tree.node i).isVisible = true := by
    intro i hi
    obtain ⟨e, he, hie⟩ := Made.mem_nodes.mp hi
    exact (h.shown e he i hie).resolve_right (htags e he)
  have hle : ∀ i ∈ made.nodes, k ≤ i := fun i hi => howns.based.le_of_visible (hvisible i hi)
  have hfilter : made.nodes.filter (k ≤ ·) = made.nodes :=
    List.filter_eq_self.mpr fun i hi => decide_eq_true (hle i hi)
  refine ⟨hvisible, ?_, fun ys hys => ?_⟩
  · rw [← hfilter]
    exact howns.nodup.sublist (hlaid.spaced.sublist.filter _)
  · refine filter_mem_eq (hys.trans hlaid.spaced.sublist) (howns.nodup.sublist ?_)
    refine List.monotone_filter_right _ fun i hi => ?_
    exact decide_eq_true (hle i (hys.subset (of_decide_eq_true hi)))

/-- The field of a block holds the statements that stand neither first nor last in it. These are all
statements just where the source shows both braces, as it does in strict mode. -/
theorem Plan.ofBlock_shows (hd : d.Based k)
    (h : (Plan.ofBlock facts b).build set label d = .ok (some i) d') :
    ∃ made shown, PartsMade set d (b.parts facts) made d' ∧ (d'.tree.node i).type = .block ∧
      (d'.tree.node i).field? "statementOrExpressions" = some (.nodes shown) ∧
      (made.parts "List").Nodup ∧
      shown.filter (· ∈ made.parts "List") =
        shownBetween (made.part "Lbrace") (made.part "Rbrace") (made.parts "List") ∧
      (shown.filter (· ∈ made.parts "List") = made.parts "List" ↔
        made.parts "List" = [] ∨ (made.part "Lbrace").isSome ∧ (made.part "Rbrace").isSome) ∧
      (set.strict = true → (made.part "Lbrace").isSome ∧ (made.part "Rbrace").isSome) := by
  have hcomments : d.HasComments := fun c hc => (hd.comments c hc).trans_le hd.le_size
  have hregular : (Plan.ofBlock facts b).Regular b.functions :=
    Plan.ofBlock_holds (T := .regular _) b (List.Subset.refl _)
  obtain ⟨lbrace, stmts, rbrace⟩ := b
  rw [Plan.ofBlock, Plan.typed] at h hregular
  obtain ⟨made, f, graph, d₁, hrun, hd₁, htree, hnode⟩ := Plan.of_build_node h
  have htogether : ∀ s ∈ [Step.one "Lbrace" (.lexeme lbrace .lbrace)] ++
      itemSteps "List" (Plan.ofStmts facts stmts) ++ [.one "Rbrace" (.lexeme rbrace .rbrace)],
      s.IsTogether := by
    intro s hs
    simp only [List.mem_append, List.mem_singleton] at hs
    rcases hs with (rfl | hs) | rfl
    · rfl
    · exact isTogether_itemSteps _ _ s hs
    · rfl
  obtain ⟨howns, hgathered, -⟩ := runSteps_owns _ [] hregular.2 (.refl hd) (.empty d) _ _ hrun
  obtain ⟨new, hnew, hparts, hlaid⟩ := runSteps_laid _ htogether (.empty d) hcomments _ _ hrun
  obtain rfl : made = new := hnew
  rw [partsOfSteps_append, partsOfSteps_append, partsOfSteps_itemSteps] at hparts
  obtain ⟨hnodes, htags, hbraces⟩ := PartsMade.of_block (b := ⟨lbrace, stmts, rbrace⟩) hparts hcomments
  obtain ⟨hvisible, hnodup, hfilter⟩ := hgathered.once howns hlaid htags
  have hsub : made.parts "List" <+ made.nodes := by
    rw [hnodes, List.append_assoc]
    exact (List.sublist_append_left _ _).trans (List.sublist_append_right _ _)
  have hapart := hnodes ▸ hnodup
  obtain ⟨⟨-, hlist, hleft⟩, -, hright⟩ := (List.nodup_append.mp hapart).imp_left List.nodup_append.mp
  have hbetween := filter_between (hnodes ▸ hlaid.spaced.head?_eq) (hnodes ▸ hlaid.spaced.getLast?_eq)
    (hfilter _ hsub) (fun i hi hmem => hleft i (Option.mem_toList.mpr hi) i hmem rfl)
    (fun i hi hmem => hright i (List.mem_append_right _ hmem) i (Option.mem_toList.mpr hi) rfl)
  have hshown : (d₁.tree.visible (between f.children.toList)).filter (· ∈ made.parts "List") =
      shownBetween (made.part "Lbrace") (made.part "Rbrace") (made.parts "List") := by
    rw [← hbetween, htree, Tree.visible, List.filter_filter]
    refine List.filter_congr fun i _ => ?_
    rw [Bool.and_eq_left_iff_imp]
    exact fun hi => hvisible i (hsub.subset (of_decide_eq_true hi))
  have hstands := hnode.stands
  refine ⟨made, _, (hparts.later hd₁).later hnode.extends.toExtends, hstands.type_eq, ?_, hlist, hshown,
    hshown ▸ shownBetween_eq_self_iff, hbraces⟩
  rw [hstands.field?_eq _ (by decide)]
  exact (Fields.get?_insert _ _ _ _).trans (if_pos rfl)

/-- Nothing is below no nodes. -/
theorem Draft.Based.empty : Draft.empty.Based 0 :=
  ⟨Nat.le_refl 0, nofun, nofun, nofun, fun _ _ hc => absurd hc List.not_mem_nil⟩

/-- A block of two statements. -/
def pairBlock : Go.Block := ⟨0, [.expr (.ident ⟨2, "a", none⟩), .expr (.ident ⟨5, "b", none⟩)], 7⟩

/-- The source of `pairBlock`, in strict mode. -/
def pairSetting : Setting := ⟨.ofText "m.go" "\x7b a; b \x7d", true⟩

theorem Plan.ofBlock_shows_pairBlock :
    Draft.empty.Based 0 ∧ ∃ i d',
      (Plan.ofBlock .none pairBlock).build pairSetting "Body" .empty = .ok (some i) d' ∧
      ∃ made shown, PartsMade pairSetting .empty (pairBlock.parts .none) made d' ∧
        (d'.tree.node i).type = .block ∧
        (d'.tree.node i).field? "statementOrExpressions" = some (.nodes shown) ∧
        (made.parts "List").Nodup ∧
        shown.filter (· ∈ made.parts "List") =
          shownBetween (made.part "Lbrace") (made.part "Rbrace") (made.parts "List") ∧
        (shown.filter (· ∈ made.parts "List") = made.parts "List" ↔
          made.parts "List" = [] ∨ (made.part "Lbrace").isSome ∧ (made.part "Rbrace").isSome) ∧
        (pairSetting.strict = true → (made.part "Lbrace").isSome ∧ (made.part "Rbrace").isSome) := by
  have hrun : attains ((Plan.ofBlock .none pairBlock).build pairSetting "Body") .empty
      (fun x _ => x.isSome) = true := by
    decide +kernel
  obtain ⟨x, d', hbuild, hsome⟩ := exists_of_attains hrun
  obtain ⟨i, rfl⟩ := Option.isSome_iff_exists.mp hsome
  exact ⟨.empty, i, d', hbuild, Plan.ofBlock_shows .empty hbuild⟩

/-- A file whose block does not start where its source shows a brace. -/
def unshownFile : Go.File :=
  ⟨0, ⟨8, "p", none⟩,
    [.func none ⟨15, "f", none⟩ ⟨some 10, none, ⟨some 16, [], some 17⟩, none⟩
      (some ⟨18, [.expr (.ident ⟨21, "a", none⟩)], 23⟩)], []⟩

/-- The source of `unshownFile`. -/
def unshownSource : SourceFile := .ofText "m.go" "package p\nfunc f() \x7b a \x7d\n"

/-- In lenient mode, a block may not show the only statement that it has. -/
theorem convertFile_unshown :
    ∃ r root i c, convertFile unshownFile unshownSource .empty ⟨false, false⟩ = .ok r ∧
      r.root = some root ∧ r.tree.Below root i ∧ (r.tree.node i).type = .block ∧
      c ∈ r.tree.children i ∧ (r.tree.node c).type = .expressionStatement ∧
      (r.tree.node i).field? "statementOrExpressions" = some (.nodes []) := by
  have hrun : (convertFile unshownFile unshownSource .empty ⟨false, false⟩).toOption.any (fun r =>
      r.root = some 16 ∧ r.tree.children 16 = [2, 14, 15] ∧ r.tree.children 14 = [13] ∧
        r.tree.children 13 = [3, 4, 7, 12, 11] ∧ (r.tree.node 11).type = .block ∧
        r.tree.children 11 = [9, 10] ∧ (r.tree.node 9).type = .expressionStatement ∧
        (r.tree.node 11).field? "statementOrExpressions" = some (.nodes [])) = true := by
    decide +kernel
  cases h : convertFile unshownFile unshownSource .empty ⟨false, false⟩ with
  | error e =>
    rw [h] at hrun
    cases hrun
  | ok r =>
    rw [h] at hrun
    simp only [Except.toOption, Option.any_some, decide_eq_true_eq] at hrun
    obtain ⟨hroot, h₁₆, h₁₄, h₁₃, hblock, h₁₁, hstmt, hfield⟩ := hrun
    have hfunc : r.tree.Below 16 13 :=
      ((Tree.Below.refl r.tree 16).child (by simp [h₁₆] : 14 ∈ r.tree.children 16)).child
        (by simp [h₁₄])
    exact ⟨r, 16, 11, 9, rfl, hroot, hfunc.child (by simp [h₁₃]), hblock, by simp [h₁₁], hstmt, hfield⟩

end LosslessGo
