import LosslessGo.Proofs.Draft.Commas
import LosslessGo.Proofs.Plan.Parts

/-!
# Parameters of a function

The parameters of a function are found in its list of parameters by their places: of each group of names
every second child counts, since the commas between the names are children as well. In strict mode, where
the source shows one comma between names of a group, these are the parameters of the names that the
function declares, in order.

* `declaredParameters`: the names, the last one of each group with its type.
* `Draft.IsParameter`, `Draft.IsGroup`: the node of a parameter, and that of a group of names.
* `Plan.field_built`: the parameters of one group.
* `Plan.fieldList_built`: those of a list.
-/

namespace LosslessGo

open scoped List
open Go (Key Ident Expr Field FieldList)
open Text

variable {set : Setting} {facts : Facts} {d d' d'' : Draft} {xs cs gs : List NodeId} {i j : NodeId}
  {a b : Nat}

/-! ## Every second item -/

section Evens

variable {α : Type} {ys : List α} {y z : α}

theorem evens_append_pair (h : ys.length % 2 = 1) : evens (ys ++ [y, z]) = evens ys ++ [z] := by
  fun_induction evens ys with
  | case1 => cases h
  | case2 x => rfl
  | case3 x x' ys ih =>
    rw [List.length_cons, List.length_cons] at h
    rw [List.cons_append, List.cons_append, evens, ih (by omega)]
    rfl

/-- Where one item stands between neighbours, every second item is kept. -/
theorem Spaced.evens_eq {gap : α → α → List α → Prop} {xs cs : List α} (h : Spaced gap xs cs)
    (hgap : ∀ x y gs, gap x y gs → ∃ g, gs = [g]) : evens cs = xs := by
  have hboth : evens cs = xs ∧ (xs ≠ [] → cs.length % 2 = 1) := by
    induction h with
    | nil => exact ⟨rfl, fun hne => absurd rfl hne⟩
    | single x => exact ⟨rfl, fun _ => rfl⟩
    | next _ hgs ih =>
      obtain ⟨g, rfl⟩ := hgap _ _ _ hgs
      obtain ⟨hevens, hodd⟩ := ih
      have hodd := hodd (by simp)
      rw [List.append_assoc]
      refine ⟨?_, fun _ => ?_⟩
      · rw [List.singleton_append, evens_append_pair hodd, hevens]
      · rw [List.length_append, List.singleton_append]
        simpa using hodd
  exact hboth.1

end Evens

/-! ## Gaps -/

/-- Comments are where they were. -/
theorem Draft.Extends.showsComma_iff (h : d.Extends d') (hd : d.HasComments) {source : String} :
    d'.ShowsComma source a b ↔ d.ShowsComma source a b := by
  have hcovered {k : Nat} : IsCovered d'.tree.node d.comments.toList a b k ↔
      IsCovered d.tree.node d.comments.toList a b k := by
    refine exists_congr fun c => and_congr_right fun hc => ?_
    rw [h.node_eq (hd c hc)]
  rw [ShowsComma, ShowsComma, bareOffsets, bareOffsets, LosslessGo.bareOffsets, LosslessGo.bareOffsets,
    h.grows.comments_eq]
  simp only [hcovered]

theorem Draft.Extends.commentsOrdered (h : d.Extends d') (hd : d.HasComments)
    (ho : d.CommentsOrdered) : d'.CommentsOrdered := by
  rw [CommentsOrdered, h.grows.comments_eq]
  refine List.Pairwise.imp_of_mem (fun {c c'} hc hc' hle => ?_) ho
  rwa [h.node_eq (hd c hc), h.node_eq (hd c' hc')]

theorem Draft.Tracked.hasComments {k : Nat} (h : d.Tracked k) : d.HasComments := h.lt_size

/-- In strict mode neighbours stand in order, and what is shown between them are tokens. -/
theorem Draft.GapBetween.shows (h : d.GapBetween set d' i j gs) (hstrict : set.strict = true)
    (ht : d.Tracked 0) (ho : d.CommentsOrdered) :
    (d'.tree.node i).stop ≤ (d'.tree.node j).offset ∧
      (∀ g ∈ d'.tree.visible gs, d'.tree.children g = []) ∧
      (d.ShowsComma set.source (d'.tree.node i).stop (d'.tree.node j).offset →
        ∃ g, d'.tree.visible gs = [g]) := by
  rcases h with ⟨-, hlenient⟩ | ⟨f, f', hf, hf', hi, hj, hle, hgap, hgs⟩
  · simp [hstrict] at hlenient
  have ht' := hf.tracked ht
  obtain ⟨-, hbare, hlt⟩ := Fill.gap_visible ht' () f' hgap gs hgs
  have hgrows : f.draft.tree.Grows d'.tree := (Fill.gap_takes () f' hgap).grows.tree.trans hf'.grows.tree
  have hvisible : d'.tree.visible gs = f'.draft.tree.visible gs :=
    List.filter_congr fun g hg => by rw [hf'.node_eq (hlt g hg)]
  rw [hvisible, hgrows.node_eq i hi, hgrows.node_eq j hj]
  refine ⟨hle, fun g hg => ?_, fun hcomma => ?_⟩
  · rw [Tree.children, hf'.node_eq (hlt g (List.mem_filter.mp hg).1)]
    exact hbare g hg
  · exact Fill.gap_comma hstrict ht' (hf.commentsOrdered ht.hasComments ho)
      ((hf.showsComma_iff ht.hasComments).mpr hcomma) () f' hgap gs hgs

/-! ## Names -/

/-- The name `_` does not stand at a carriage return. -/
def Go.Ident.StartsClear (source : String) (x : Ident) : Prop :=
  x.name = "_" → byteAt? source x.pos.toNat ≠ some carriageReturn

instance (source : String) (x : Ident) : Decidable (x.StartsClear source) :=
  inferInstanceAs (Decidable (_ = _ → _ ≠ _))

/-- A leaf of one byte that stands at no carriage return has no room for one. -/
theorem Build.expectedLeaf_byte {offset : Nat} {expected : String} {kind : TokenKind} {type : NodeType}
    {fields : Fields} (hone : expected.utf8ByteSize = 1) (hkind : kind ≠ .endOfFile)
    (hclear : byteAt? set.source offset ≠ some carriageReturn) :
    Yields (expectedLeaf set offset expected kind type fields) d fun x d' => ∀ i ∈ x,
      i < d'.tree.size ∧ (d'.tree.node i).offset = offset ∧ (d'.tree.node i).stop = offset + 1 := by
  have hleaf {stop : Nat} (hstop : offset < stop → stop ≤ set.size → stop = offset + 1) :
      Yields (leaf set offset stop kind type fields) d fun x d' => ∀ i ∈ x,
        i < d'.tree.size ∧ (d'.tree.node i).offset = offset ∧ (d'.tree.node i).stop = offset + 1 := by
    refine leaf_yields.mono ?_
    rintro _ _ (⟨rfl, -⟩ | ⟨n, hn, rfl, rfl⟩) i hi
    · cases hi
    · obtain rfl := Option.some_inj.mp hi
      have hnode : (d.add n).tree.node d.tree.size = n := Tree.node_push_size
      have hsize : (d.add n).tree.size = d.tree.size + 1 := Tree.size_push
      rw [hnode, hn.offset_eq, hn.stop_eq, hsize]
      exact ⟨Nat.lt_succ_self _, rfl, hstop (hn.offset_lt hkind) hn.stop_le⟩
  by_cases hu : LineMap.Unchecked set.source offset expected.utf8ByteSize
  · rw [expectedLeaf_of_unchecked hu]
    refine hleaf fun hlt hle => ?_
    rw [hone] at hu
    obtain ⟨-, -, -, hend | ⟨-, k, hk, hle', hreturn⟩⟩ := hu
    · have : set.size = set.source.utf8ByteSize := rfl
      omega
    · obtain rfl : k = offset := by omega
      exact absurd hreturn hclear
  · refine .bind (ofExcept_yields fun x hx => ?_)
    cases x with
    | none => exact .pure (by simp)
    | some stop =>
      obtain ⟨rfl, -⟩ := of_expectedStop? hu hx
      exact hleaf fun _ _ => by rw [hone]

namespace Plan

/-- A node without parts stands where its origin does. -/
theorem Built.bare {key : Key} {type : NodeType} {fields : List (String × FieldPlan)}
    (h : (typed key type fields []).Built set d (some i) d') (hd : d.HasComments) :
    i < d'.tree.size ∧ (d'.tree.node i).offset = key.start.toNat ∧
      (d'.tree.node i).stop = key.stop.toNat := by
  obtain ⟨made, d₁, hplanned⟩ := Built.planned h (by simp) hd
  have hmade : made = [] := by
    cases hplanned.parts with
    | nil => rfl
  subst hmade
  exact ⟨hplanned.lt_size, hplanned.span_eq rfl key rfl⟩

/-- In strict mode a name has a node where it starts, which stops where the name does, unless a carriage
return is in its place. -/
theorem ofIdent_built {x : Ident} {r : Option NodeId} (hstrict : set.strict = true)
    (hd : d.HasComments) (h : (ofIdent facts x).Built set d r d') :
    ∃ j, r = some j ∧ j < d'.tree.size ∧ (d'.tree.node j).offset = x.start.toNat ∧
      (x.StartsClear set.source → (d'.tree.node j).stop < UInt32.size →
        (d'.tree.node j).stop = x.stop.toNat) := by
  obtain ⟨j, rfl⟩ := (ofIdent_isSure facts x).built hstrict h
  refine ⟨j, rfl, ?_⟩
  unfold ofIdent at h
  split at h
  · obtain ⟨hlt, hoffset, hstop⟩ := h.bare hd
    exact ⟨hlt, hoffset, fun _ _ => hstop⟩
  split at h
  · rename_i hname
    obtain ⟨made, d₁, hplanned⟩ := Built.planned h (by simp) hd
    obtain ⟨r, rfl, hleaf⟩ := hplanned.parts_final.of_singleton
    obtain ⟨l, rfl⟩ := (IsSure.leaf ..).built hstrict hleaf
    obtain ⟨label, d₂, d₃, -, hbuild, hd₃⟩ := hleaf
    change Build.expectedLeaf set x.pos.toNat "_" .keyword .native (tokenFields label) d₂ = _ at hbuild
    obtain ⟨hl, hleaf⟩ : l < d₃.tree.size ∧ (d₃.tree.node l).offset = x.pos.toNat := by
      cases Build.expectedLeaf_yields _ _ hbuild with
      | some n stop hn =>
        rw [show (d₂.add n).tree.size = d₂.tree.size + 1 from Tree.size_push,
          show (d₂.add n).tree.node d₂.tree.size = n from Tree.node_push_size]
        exact ⟨Nat.lt_succ_self _, hn.offset_eq⟩
    refine ⟨hplanned.lt_size, ?_, fun hclear hlt => ?_⟩
    · rw [hplanned.offset_final l rfl, hd₃.node_eq hl, hleaf]
      rfl
    · obtain ⟨-, -, hstop⟩ :=
        Build.expectedLeaf_byte (by decide) (by decide) (hclear hname) _ _ hbuild l rfl
      have hwidth : Go.width x.name = 1 := by
        rw [hname]
        decide
      rw [hplanned.stop_final l rfl, hd₃.node_eq hl, hstop] at hlt ⊢
      rw [Go.Ident.stop, hwidth, UInt32.toNat_add]
      exact (Nat.mod_eq_of_lt hlt).symm
  · obtain ⟨hlt, hoffset, hstop⟩ := h.bare hd
    exact ⟨hlt, hoffset, fun _ _ => hstop⟩

end Plan

/-! ## One parameter -/

/-- The parameters of a group of names. Only the last one has the type. -/
def groupParameters (type : Expr) : List Ident → List (Ident × Option Expr)
  | [] => []
  | [x] => [(x, some type)]
  | x :: y :: xs => (x, none) :: groupParameters type (y :: xs)

/-- The parameters that a list declares, one for each name, in order. -/
def declaredParameters (l : FieldList) : List (Ident × Option Expr) :=
  l.fields.flatMap fun field => groupParameters field.type field.names

/-- Node `p` is the parameter of a name, with the node of its type where it has one. -/
structure Draft.IsParameter (set : Setting) (facts : Facts) (d d' : Draft) (e : Ident × Option Expr)
    (p : NodeId) : Prop where
  lt_size : p < d'.tree.size
  type_eq : (d'.tree.node p).type = .parameter
  identifier : ∃ j ∈ d'.tree.children p, (Plan.ofIdent facts e.1).Built set d (some j) d' ∧
    (d'.tree.node p).field? "identifier" = some (.node (some j))
  typed : ∃ t, (d'.tree.node p).field? "type" = some (.node t) ∧ t.isSome = e.2.isSome ∧
    ∀ type ∈ e.2, (Plan.ofExpr facts type).Built set d t d'

theorem Draft.IsParameter.later {e : Ident × Option Expr} {p : NodeId}
    (h : d.IsParameter set facts d' e p) (hd : d'.Extends d'') : d.IsParameter set facts d'' e p := by
  obtain ⟨hlt, htype, ⟨j, hj, hname, hidentifier⟩, t, htyped, ht, hbuilt⟩ := h
  have hnode := hd.node_eq hlt
  rw [← hnode] at htype hidentifier htyped
  rw [Tree.children, ← hnode] at hj
  exact ⟨hlt.trans_le hd.size_le, htype, ⟨j, hj, hname.later hd, hidentifier⟩, t, htyped, ht,
    fun type htype => (hbuilt type htype).later hd⟩

/-- Node `p` is a parameter, and stands where its name does. -/
structure Draft.IsParameterAt (set : Setting) (facts : Facts) (d d' : Draft) (e : Ident × Option Expr)
    (p : NodeId) : Prop extends d.IsParameter set facts d' e p where
  visible : (d'.tree.node p).isVisible = true
  offset_eq : (d'.tree.node p).offset = e.1.start.toNat
  stop_eq : e.2 = none → e.1.StartsClear set.source → (d'.tree.node p).stop < UInt32.size →
    (d'.tree.node p).stop = e.1.stop.toNat

namespace Plan

theorem parameter_built {e : Ident × Option Expr} {r : Option NodeId} (hstrict : set.strict = true)
    (hd : d.HasComments)
    (h : (parameter facts e.1 (option (e.2.map (ofExpr facts)))).Built set d r d') :
    ∃ p, r = some p ∧ d.IsParameterAt set facts d' e p := by
  obtain ⟨x, t⟩ := e
  obtain ⟨p, rfl⟩ := (IsSure.node ..).built hstrict h
  refine ⟨p, rfl, ?_⟩
  obtain ⟨made, d₁, hplanned⟩ := Built.planned h (by simp) hd
  have hbuilt := hplanned.parts_final.built hd
  simp only [partsOfSteps_together, partsOfSteps_nil, List.append_nil] at hbuilt
  obtain ⟨_, _, ⟨r, rfl, hname⟩, hrest, rfl⟩ := List.forall₂_cons_left_iff.mp hbuilt
  obtain ⟨_, _, ⟨u, rfl, htype⟩, hnil, rfl⟩ := List.forall₂_cons_left_iff.mp hrest
  obtain rfl := List.forall₂_nil_left_iff.mp hnil
  obtain ⟨j, rfl, -, hoffset, hstop⟩ := ofIdent_built hstrict hd hname
  have hnodes : Made.nodes [("Name", some j), ("Type", u)] = j :: u.toList := by
    rw [Made.nodes_cons, Made.nodes_cons]
    cases u <;> rfl
  have hu : u.isSome = t.isSome := by
    cases t with
    | none =>
      obtain ⟨_, _, _, -, hbuild, -⟩ := htype
      cases hbuild
      rfl
    | some type =>
      obtain ⟨i, rfl⟩ := (ofExpr_isSure facts type).built hstrict htype
      rfl
  have hnames : (["identifier", "type"] : List String).Nodup := by decide
  obtain ⟨_, _, hidentifier⟩ := hplanned.field?_eq hnames List.mem_cons_self (by decide)
  obtain ⟨_, _, htyped⟩ :=
    hplanned.field?_eq hnames (List.mem_cons_of_mem _ List.mem_cons_self) (by decide)
  refine ⟨⟨hplanned.lt_size, hplanned.type_eq, ⟨j, ?_, hname, hidentifier⟩, u, htyped, hu, ?_⟩,
    hplanned.visible, ?_, ?_⟩
  · exact hplanned.spaced.sublist.subset (hnodes ▸ List.mem_cons_self)
  · rintro type rfl
    exact htype
  · rw [hplanned.offset_final j (hnodes ▸ rfl), hoffset]
  · rintro rfl hclear hlt
    obtain rfl : u = none := by simpa using hu
    rw [hplanned.stop_final j (hnodes ▸ rfl)] at hlt ⊢
    exact hstop hclear hlt

end Plan

/-! ## The parameters of a group -/

theorem Plan.parameters_eq (type : Expr) (names : List Ident) :
    parameters facts (ofExpr facts type) names =
      (groupParameters type names).map fun e => parameter facts e.1 (option (e.2.map (ofExpr facts))) := by
  fun_induction groupParameters type names with
  | case1 => rfl
  | case2 x => rfl
  | case3 x y xs ih => rw [parameters, ih, List.map_cons]; rfl

theorem groupParameters_eq_nil_iff {type : Expr} {names : List Ident} :
    groupParameters type names = [] ↔ names = [] := by
  fun_cases groupParameters type names <;> simp

/-- Neighbours in a group are names of which the first one has no type. -/
theorem isChain_groupParameters {R : Ident → Ident → Prop} {type : Expr} {names : List Ident}
    (h : names.IsChain R) :
    (groupParameters type names).IsChain fun e e' => e.2 = none ∧ R e.1 e'.1 := by
  fun_induction groupParameters type names with
  | case1 => exact .nil
  | case2 x => exact .singleton _
  | case3 x y xs ih =>
    obtain ⟨hxy, hrest⟩ := List.isChain_cons_cons.mp h
    cases xs <;> exact .cons_cons ⟨rfl, hxy⟩ (ih hrest)

/-- What holds along one list holds along another that goes with it. -/
theorem isChain_of_forall₂ {α β : Type} {R : α → β → Prop} {S : α → α → Prop} {T : β → β → Prop}
    {as : List α} {bs : List β} (h : List.Forall₂ R as bs) (hchain : as.IsChain S)
    (himp : ∀ a a' b b', S a a' → R a b → R a' b' → T b b') : bs.IsChain T := by
  induction h with
  | nil => exact .nil
  | cons hab hrest ih =>
    cases hrest with
    | nil => exact .singleton _
    | cons hab' hrest' =>
      obtain ⟨hstep, hchain⟩ := List.isChain_cons_cons.mp hchain
      exact .cons_cons (himp _ _ _ _ hstep hab hab') (ih hchain)

/-- Where each item goes with a value that is there, the values can be listed. -/
theorem exists_of_forall₂_some {α β : Type} {R : α → β → Prop} {as : List α} {xs : List (Option β)}
    (h : List.Forall₂ (fun a x => ∃ b, x = some b ∧ R a b) as xs) :
    ∃ bs, xs = bs.map some ∧ List.Forall₂ R as bs := by
  induction h with
  | nil => exact ⟨[], rfl, .nil⟩
  | cons hx _ ih =>
    obtain ⟨b, rfl, hb⟩ := hx
    obtain ⟨bs, rfl, hbs⟩ := ih
    exact ⟨b :: bs, rfl, .cons hb hbs⟩

/-- Each item of the second list goes with one of the first. -/
theorem exists_of_forall₂_mem {α β : Type} {R : α → β → Prop} {as : List α} {bs : List β}
    (h : List.Forall₂ R as bs) {b : β} (hb : b ∈ bs) : ∃ a ∈ as, R a b := by
  induction h with
  | nil => cases hb
  | cons hab _ ih =>
    rcases List.mem_cons.mp hb with rfl | hb
    · exact ⟨_, List.mem_cons_self, hab⟩
    · obtain ⟨a, ha, hab⟩ := ih hb
      exact ⟨a, List.mem_cons_of_mem _ ha, hab⟩

theorem Made.nodes_of_some {made : Made} (h : made.map (·.2) = xs.map some) : made.nodes = xs := by
  rw [nodes, h, List.reduceOption, List.filterMap_map]
  exact List.filterMap_some

namespace Tree

/-- Node `i` stops before node `j` starts. -/
def Before (t : Tree) (i j : NodeId) : Prop := (t.node i).stop ≤ (t.node j).offset

/-- Every second child that a node shows. -/
def evenChildren (t : Tree) (i : NodeId) : List NodeId := evens (t.visible (t.children i))

end Tree

/-- Node `g` has the parameters of a group, in order, and spans them. -/
structure Draft.IsGroup (set : Setting) (facts : Facts) (d d' : Draft) (x : Field) (g : NodeId) :
    Prop where
  visible : (d'.tree.node g).isVisible = true
  parameters : List.Forall₂ (d.IsParameter set facts d') (groupParameters x.type x.names)
    (d'.tree.evenChildren g)
  ordered : (d'.tree.evenChildren g).IsChain d'.tree.Before
  offset_eq : ∀ p ∈ (d'.tree.evenChildren g).head?, (d'.tree.node g).offset = (d'.tree.node p).offset
  stop_eq : ∀ p ∈ (d'.tree.evenChildren g).getLast?, (d'.tree.node g).stop = (d'.tree.node p).stop

/-- Between names of a group the source shows one comma, and no name stands at a carriage return. -/
structure Draft.ShowsNames (source : String) (d : Draft) (names : List Ident) : Prop where
  ne_nil : names ≠ []
  commas : names.IsChain fun x y => d.ShowsComma source x.stop.toNat y.start.toNat
  clear : ∀ x ∈ names, x.StartsClear source

instance (source : String) (d : Draft) (names : List Ident) : Decidable (d.ShowsNames source names) :=
  decidable_of_iff (names ≠ [] ∧
      names.IsChain (fun x y => d.ShowsComma source x.stop.toNat y.start.toNat) ∧
      ∀ x ∈ names, x.StartsClear source)
    ⟨fun h => ⟨h.1, h.2.1, h.2.2⟩, fun h => ⟨h.ne_nil, h.commas, h.clear⟩⟩

namespace Plan

/-- Every second child that a group shows is the parameter of one of its names, in order. -/
theorem field_built {x : Field} {r : Option NodeId} (hstrict : set.strict = true) (ht : d.Tracked 0)
    (ho : d.CommentsOrdered) (hx : d.ShowsNames set.source x.names)
    (h : (field facts .params x.key x.names (ofExpr facts x.type) x.tag).Built set d r d') :
    ∃ g, r = some g ∧ d.IsGroup set facts d' x g := by
  have hd := ht.hasComments
  rw [field, if_pos ⟨rfl, hx.ne_nil⟩] at h
  obtain ⟨g, rfl⟩ := (IsSure.node ..).built hstrict h
  obtain ⟨made, d₁, hplanned⟩ := Built.planned h (isTogether_itemSteps _ _) hd
  have hitems := hplanned.parts_final
  rw [partsOfSteps_itemSteps, parameters_eq] at hitems
  have hbuilt := List.forall₂_map_left_iff.mp (hitems.built_items hd)
  obtain ⟨ps, hps, hparameters⟩ :=
    exists_of_forall₂_some (hbuilt.imp fun e r hr => parameter_built hstrict hd hr)
  have hnodes := Made.nodes_of_some hps
  have hspaced := hplanned.spaced_final
  rw [hnodes] at hspaced
  have hordered : ps.IsChain d'.tree.Before :=
    hspaced.isChain fun _ _ _ hgap => (hgap.shows hstrict ht ho).1
  -- The positions of names are known as far as they are behind each other.
  have hchain : ps.IsChain fun p q => d'.tree.Before p q →
      d.ShowsComma set.source (d'.tree.node p).stop (d'.tree.node q).offset := by
    have hboth : x.names.IsChain fun y z =>
        y.StartsClear set.source ∧ d.ShowsComma set.source y.stop.toNat z.start.toNat :=
      hx.commas.imp_of_mem_imp fun y z hy _ hcomma => ⟨hx.clear y hy, hcomma⟩
    refine isChain_of_forall₂ hparameters (isChain_groupParameters hboth) ?_
    rintro e e' p q ⟨hnone, hshown, hcomma⟩ hp hq hle
    rw [Tree.Before, hq.offset_eq] at hle
    rw [hq.offset_eq]
    have hlt : (d'.tree.node p).stop < UInt32.size := hle.trans_lt e'.1.start.toNat_lt_size
    rwa [hp.stop_eq hnone hshown hlt]
  have hvisible : ∀ p ∈ ps, (d'.tree.node p).isVisible = true := fun p hp => by
    obtain ⟨e, -, he⟩ := exists_of_forall₂_mem hparameters hp
    exact he.visible
  have hsingle : Spaced (fun _ _ gs => ∃ g, gs = [g]) ps (d'.tree.visible (d'.tree.children g)) := by
    refine (hspaced.imp_chain hchain fun p q gs hpq hgap => ?_).filter hvisible fun _ _ _ hgs => hgs
    obtain ⟨hle, -, hcomma⟩ := hgap.shows hstrict ht ho
    exact hcomma (hpq hle)
  have heven : d'.tree.evenChildren g = ps := hsingle.evens_eq fun _ _ _ hgs => hgs
  exact ⟨g, rfl, hplanned.visible, heven ▸ hparameters.imp fun _ _ hp => hp.toIsParameter,
    heven ▸ hordered, heven ▸ hnodes ▸ hplanned.offset_final, heven ▸ hnodes ▸ hplanned.stop_final⟩

end Plan

/-! ## The parameters of a list -/

/-- Items at the ends that come to nothing make no difference. -/
theorem flatMap_between {α β : Type} {f : α → List β} {as : List α} {a b : α} (hhead : as.head? = some a)
    (hlast : as.getLast? = some b) (ha : f a = []) (hb : f b = []) :
    (between as).flatMap f = as.flatMap f := by
  obtain ⟨rest, rfl⟩ := List.head?_eq_some_iff.mp hhead
  rcases List.eq_nil_or_concat' rest with rfl | ⟨rest, c, rfl⟩
  · simp [between, ha]
  · rw [← List.cons_append, List.getLast?_concat] at hlast
    obtain rfl := Option.some_inj.mp hlast
    simp [between, ha, hb]

/-- A visible node without children. -/
structure Tree.IsToken (t : Tree) (i : NodeId) : Prop where
  visible : (t.node i).isVisible = true
  bare : t.children i = []

theorem Tree.IsToken.evenChildren_eq {t : Tree} (h : t.IsToken i) : t.evenChildren i = [] := by
  rw [evenChildren, h.bare]
  rfl

/-- Between the delimiters of a list only groups have children, whatever else is gathered there. -/
theorem Draft.parametersOf_eq {gap : NodeId → NodeId → List NodeId → Prop} {a b : NodeId}
    (hspaced : Spaced gap (a :: gs ++ [b]) (d.tree.children i)) (ha : d.tree.IsToken a)
    (hb : d.tree.IsToken b) (hgs : ∀ g ∈ gs, (d.tree.node g).isVisible = true)
    (hgap : ∀ x y cs, gap x y cs → ∀ c ∈ d.tree.visible cs, d.tree.children c = []) :
    parametersOf d i = gs.flatMap d.tree.evenChildren := by
  have hvisible : ∀ c ∈ a :: gs ++ [b], (d.tree.node c).isVisible = true := fun c hc => by
    simp only [List.mem_append, List.mem_cons, List.not_mem_nil, or_false] at hc
    rcases hc with (rfl | hc) | rfl
    · exact ha.visible
    · exact hgs c hc
    · exact hb.visible
  have hshown : Spaced (fun _ _ cs => cs.flatMap d.tree.evenChildren = []) (a :: gs ++ [b])
      (d.tree.visible (d.tree.children i)) :=
    hspaced.filter hvisible fun x y cs hcs => List.flatMap_eq_nil_iff.mpr fun c hc =>
      Tree.IsToken.evenChildren_eq ⟨(List.mem_filter.mp hc).2, hgap x y cs hcs c hc⟩
  have hlast := hshown.getLast?_eq.trans List.getLast?_concat
  have hall : (a :: gs ++ [b]).flatMap d.tree.evenChildren = gs.flatMap d.tree.evenChildren := by
    rw [List.flatMap_append, List.flatMap_cons, List.flatMap_singleton, ha.evenChildren_eq,
      hb.evenChildren_eq, List.nil_append, List.append_nil]
  change (between (d.tree.visible (d.tree.children i))).flatMap d.tree.evenChildren = _
  rw [flatMap_between hshown.head?_eq hlast ha.evenChildren_eq hb.evenChildren_eq,
    hshown.flatMap_eq fun _ _ _ hcs => hcs, hall]

/-- The parameters of groups are in order where the groups are. -/
theorem Draft.IsGroup.isChain {fields : List Field}
    (hgroups : List.Forall₂ (d.IsGroup set facts d') fields gs) (hfields : ∀ x ∈ fields, x.names ≠ [])
    (hordered : gs.IsChain d'.tree.Before) :
    (gs.flatMap d'.tree.evenChildren).IsChain d'.tree.Before := by
  have hgroup : ∀ g ∈ gs, ∃ x ∈ fields, d.IsGroup set facts d' x g :=
    fun g hg => exists_of_forall₂_mem hgroups hg
  have hnil : [] ∉ gs.map d'.tree.evenChildren := fun hmem => by
    obtain ⟨g, hg, hempty⟩ := List.mem_map.mp hmem
    obtain ⟨x, hx, hgx⟩ := hgroup g hg
    have hnone := hgx.parameters
    rw [hempty, List.forall₂_nil_right_iff, groupParameters_eq_nil_iff] at hnone
    exact hfields x hx hnone
  rw [List.flatMap_def, List.isChain_flatten hnil, List.forall_mem_map, List.isChain_map]
  refine ⟨fun g hg => ?_, hordered.imp_of_mem_imp fun g g' hg hg' hle p hp q hq => ?_⟩
  · obtain ⟨x, -, hgx⟩ := hgroup g hg
    exact hgx.ordered
  · obtain ⟨x, -, hgx⟩ := hgroup g hg
    obtain ⟨x', -, hgx'⟩ := hgroup g' hg'
    rwa [Tree.Before, ← hgx.stop_eq p hp, ← hgx'.offset_eq q hq]

namespace Plan

/-- In strict mode an operator or keyword that the source shows is a leaf. -/
theorem lexeme_built {pos : Option Go.Pos} {word : Go.Lexeme} {r : Option NodeId}
    (hstrict : set.strict = true) (hpos : pos.isSome = true)
    (h : (lexeme pos word).Built set d r d') : ∃ l, r = some l ∧ d'.tree.IsToken l := by
  obtain ⟨p, rfl⟩ := Option.isSome_iff_exists.mp hpos
  obtain ⟨l, rfl⟩ := (IsSure.leaf ..).built hstrict h
  obtain ⟨label, d₁, d₂, -, hbuild, hd₂⟩ := h
  refine ⟨l, rfl, ?_⟩
  cases Build.expectedLeaf_yields _ _ hbuild with
  | some n stop hn =>
    have hnode : d'.tree.node d₁.tree.size = n := by
      rw [hd₂.node_eq (Tree.size_push ▸ Nat.lt_succ_self _)]
      exact Tree.node_push_size
    obtain ⟨range, text, htoken, -⟩ := hn.token_eq
    refine ⟨?_, by rw [Tree.children, hnode, hn.children_eq]⟩
    rw [hnode, Node.isVisible, htoken]
    by_cases hkeyword : word.isKeyword <;> simp [hkeyword, TokenKind.isListed]

theorem ofFields_eq (role : Go.ListRole) (fields : List Field) : ofFields facts role fields =
    fields.map fun x => field facts role x.key x.names (ofExpr facts x.type) x.tag := by
  induction fields with
  | nil => rfl
  | cons x fields ih =>
    obtain ⟨names, type, tag⟩ := x
    rw [ofFields, ih]
    rfl

/-- The parts of a list of parameters: its delimiters, and the groups between them. -/
theorem ofFieldList_eq (l : FieldList) : ofFieldList facts .params l =
    .node .shared ⟨some l.key, .native, nativeFields (.within l.key.kind.name)⟩ none
      ([.one "Opening" (.lexeme l.opening .lparen)] ++
        [.together (itemParts "List" (ofFields facts .params l.fields))] ++
        [.one "Closing" (.lexeme l.closing .rparen)]) := by
  obtain ⟨opening, fields, closing⟩ := l
  rw [ofFieldList]
  rfl

/-- A list of parameters is laid out as a group for each field between its delimiters. -/
theorem fieldList_laid {l : FieldList} {r : Option NodeId} (hstrict : set.strict = true)
    (ht : d.Tracked 0) (ho : d.CommentsOrdered) (hopening : l.opening.isSome = true)
    (hclosing : l.closing.isSome = true) (hl : ∀ x ∈ l.fields, d.ShowsNames set.source x.names)
    (h : (ofFieldList facts .params l).Built set d r d') :
    ∃ i a b gs, r = some i ∧ d'.tree.IsToken a ∧ d'.tree.IsToken b ∧
      List.Forall₂ (d.IsGroup set facts d') l.fields gs ∧
      Spaced (d.GapBetween set d') (a :: gs ++ [b]) (d'.tree.children i) := by
  have hd := ht.hasComments
  rw [ofFieldList_eq] at h
  obtain ⟨i, rfl⟩ := (IsSure.node ..).built hstrict h
  obtain ⟨made, d₁, hplanned⟩ := Built.planned h (by simp) hd
  have hparts := hplanned.parts_final
  simp only [partsOfSteps_append, partsOfSteps_one, partsOfSteps_together, partsOfSteps_nil,
    List.append_nil, ofFields_eq] at hparts
  obtain ⟨new, last, rfl, hnew, hlast⟩ := hparts.of_append hd
  obtain ⟨first, items, rfl, hfirst, hitems⟩ := hnew.of_append hd
  obtain ⟨_, rfl, hleft⟩ := hfirst.of_singleton
  obtain ⟨_, rfl, hright⟩ := hlast.of_singleton
  obtain ⟨a, rfl, ha⟩ := lexeme_built hstrict hopening hleft
  obtain ⟨b, rfl, hb⟩ := lexeme_built hstrict hclosing hright
  have hbuilt := (List.forall₂_and_left _ _).mpr
    ⟨hl, List.forall₂_map_left_iff.mp (hitems.built_items hd)⟩
  obtain ⟨gs, hgs, hgroups⟩ := exists_of_forall₂_some
    (hbuilt.imp fun x r hr => field_built (x := x) hstrict ht ho hr.1 hr.2)
  have hnodes : Made.nodes ([("Opening", some a)] ++ items ++ [("Closing", some b)]) =
      a :: gs ++ [b] := by
    rw [Made.nodes_append, Made.nodes_append, Made.nodes_of_some hgs]
    rfl
  exact ⟨i, a, b, gs, rfl, ha, hb, hgroups, hnodes ▸ hplanned.spaced_final⟩

/-- The parameters that are found in a list are those that it declares, in order. -/
theorem fieldList_built {l : FieldList} {r : Option NodeId} (hstrict : set.strict = true)
    (ht : d.Tracked 0) (ho : d.CommentsOrdered) (hopening : l.opening.isSome = true)
    (hclosing : l.closing.isSome = true) (hl : ∀ x ∈ l.fields, d.ShowsNames set.source x.names)
    (h : (ofFieldList facts .params l).Built set d r d') :
    ∃ i, r = some i ∧ (parametersOf d' i).IsChain d'.tree.Before ∧
      List.Forall₂ (d.IsParameter set facts d') (declaredParameters l) (parametersOf d' i) := by
  obtain ⟨i, a, b, gs, rfl, ha, hb, hgroups, hspaced⟩ :=
    fieldList_laid hstrict ht ho hopening hclosing hl h
  have hordered : gs.IsChain d'.tree.Before := by
    have hchain := hspaced.isChain fun _ _ _ hgap => (hgap.shows hstrict ht ho).1
    exact hchain.left_of_append.tail
  have hparameters := Draft.parametersOf_eq hspaced ha hb
    (fun g hg => (exists_of_forall₂_mem hgroups hg).choose_spec.2.visible)
    fun _ _ _ hgap => (hgap.shows hstrict ht ho).2.1
  refine ⟨i, rfl, ?_, ?_⟩
  · rw [hparameters]
    exact Draft.IsGroup.isChain hgroups (fun x hx => (hl x hx).ne_nil) hordered
  · rw [hparameters]
    exact List.rel_flatMap hgroups fun x g hg => hg.parameters

end Plan

end LosslessGo
