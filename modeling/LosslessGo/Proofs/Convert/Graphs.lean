import LosslessGo.Proofs.Convert.Root
import LosslessGo.Proofs.Plan.Builds

/-!
# Flow graphs refer to nodes of their function

The flow graph of a function refers to nodes by numbers that belong to the function alone.

* `Tree.Owns`: a node is below a function, and below no function between.
* `Draft.GraphFits`: the graph of a function is that of its body, and the numbers in it are of nodes
  that the function owns.
* `Draft.GraphsFit`: all graphs fit, and the functions are among given ones.
* `convertFile_graphs`: all graphs of a file fit its functions, and a closure changes no number of the
  function around it.
-/

namespace LosslessGo

open Go (Key)
open LosslessGo.Flow (IdScope)

variable {set : Setting} {d d' : Draft}

/-- Node `i` is strictly below the function `f`, and not strictly below a function that is. -/
structure Tree.Owns (t : Tree) (f i : NodeId) : Prop where
  under : t.Under f i
  apart : ∀ n, t.Under f n → (t.node n).type = .functionDeclaration → ¬ t.Under n i

/-- The flow graph `g` of the function node `f` is that of `body`. Between the start and the end of
the function the events `inside` happened, and nodes got numbers under the keys of `own`, the last one
first, outside of the functions that were entered and left meanwhile. -/
structure Draft.GraphFits (d : Draft) (f : NodeId) (g : Flow.Graph) (key : Key) (body : Go.Block)
    (inside : List Event) (own : List (NodeId × Key)) : Prop where
  history : ∃ before after,
    d.history = after ++ .numbered f key :: .left :: (inside ++ .entered :: before)
  numbers : Numbers inside own
  /-- The blocks are those of the body. Each key stands for the number of the last node under it. -/
  blocks_eq : g.blocks = (Flow.blocksOf body).map fun b =>
    ⟨b.nodes.map (d.tree.numberOf own), b.successors.map fun (n : Nat) => (n : Int)⟩
  numberOf_ne_zero : ∀ key, d.tree.numberOf own key ≠ 0 ↔ ∃ i, (i, key) ∈ own
  flowId_last : ∀ key e, (own.find? fun e => e.2 = key) = some e →
    (d.tree.node e.1).flowId = some (d.tree.numberOf own key)
  /-- The nodes that got numbers are the nodes with numbers that the function owns. -/
  owns_iff : ∀ i, (∃ key, (i, key) ∈ own) ↔ d.tree.Owns f i ∧ (d.tree.node i).flowId ≠ none
  flowId_inj : ∀ i j, d.tree.Owns f i → d.tree.Owns f j → (d.tree.node i).flowId ≠ none →
    (d.tree.node i).flowId = (d.tree.node j).flowId → i = j
  /-- Numbers count the nodes numbered before, without those of the functions in between. -/
  flowId_eq : ∀ later e earlier, own = later ++ e :: earlier →
    (d.tree.node e.1).flowId = some ((earlier.length + 1 : Nat) : Int)

/-! ## Below a function -/

/-- Comments are plain. -/
def Draft.Bare (d : Draft) : Prop := ∀ c ∈ d.comments.toList, (d.tree.node c).Plain

/-- Nothing but comments is below a node and out of what encloses it. -/
theorem Draft.Encloses.under {a f : Nat} {i : NodeId} (h : d.Encloses a f) (hbare : d.Bare)
    (ha : a ≤ f) (hunder : d.tree.Under f i) : a ≤ i ∧ i < f ∨ i ∈ d.comments.toList := by
  obtain ⟨c, hc, hbelow⟩ := hunder
  refine hbelow.within (P := fun i => a ≤ i ∧ i < f ∨ i ∈ d.comments.toList) ?_
    (h f ha (Nat.le_refl f) c hc)
  rintro k (⟨hk, hlt⟩ | hk) c hc
  · rcases h k hk hlt.le c hc with ⟨hc, hck⟩ | hc
    · exact .inl ⟨hc, hck.trans hlt⟩
    · exact .inr hc
  · rw [Tree.children, (hbare k hk).children_eq] at hc
    cases hc

section Function

variable {d₀ d₁ : Draft} {inside : List Event} {own : List (NodeId × Key)} {i : NodeId}
  (hmakes : d₀.Makes (d.tree.children d₁.tree.size) d₁ inside own) (hg : d₁.Grows d)
  (hbare : d.Bare)

include hmakes hg

/-- A function encloses what was made for it. -/
theorem Draft.Makes.encloses_function : d.Encloses d₀.tree.size d₁.tree.size := by
  intro i ha hi c hc
  rcases Nat.lt_or_eq_of_le hi with hlt | rfl
  · exact (hmakes.encloses i ⟨ha, hlt⟩).grows hg hlt i ha (Nat.le_refl i) c hc
  · rw [hg.comments_eq, hmakes.grows.comments_eq]
    exact hmakes.results c hc

/-- Nodes with numbers that were made for a function are below it. -/
theorem Draft.Makes.under_function (hi : d₀.Adds d₁ i) (hn : (d.tree.node i).flowId ≠ none) :
    d.tree.Under d₁.tree.size i := by
  rw [hg.tree.node_eq i hi.2] at hn
  obtain ⟨r, hr, -, hbelow⟩ := hmakes.rooted i hi hn
  exact ⟨r, hr, hbelow.grows hg.tree⟩

include hbare

/-- A function owns the nodes that got numbers for it. -/
theorem Draft.Makes.owns_function {e : NodeId × Key} (he : e ∈ own)
    (hn : (d.tree.node e.1).flowId ≠ none) : d.tree.Owns d₁.tree.size e.1 := by
  refine ⟨hmakes.under_function hg (hmakes.adds e he) hn, fun n hfn htype hne => ?_⟩
  rcases (hmakes.encloses_function hg).under hbare hmakes.grows.tree.size_le hfn with hadds | hc
  · rw [hg.tree.node_eq n hadds.2] at htype
    obtain ⟨a, ha, hencl, hapart⟩ := hmakes.apart e he n hadds htype
    rcases (hencl.grows hg hadds.2).under hbare ha hne with ⟨hae, hen⟩ | hc
    · rcases hapart with hlt | hge
      · exact absurd hae (Nat.not_le_of_lt hlt)
      · exact absurd hge (Nat.not_le_of_lt hen)
    · exact hn (hbare e.1 hc).flowId_eq
  · exact (hbare n hc).not_function htype

/-- Nodes with numbers that a function owns got them for it. -/
theorem Draft.Makes.own_of_owns (hi : d.tree.Owns d₁.tree.size i)
    (hn : (d.tree.node i).flowId ≠ none) : ∃ key, (i, key) ∈ own := by
  rcases (hmakes.encloses_function hg).under hbare hmakes.grows.tree.size_le hi.under with hadds | hc
  · have hn₁ := hn
    rw [hg.tree.node_eq i hadds.2] at hn₁
    rcases hmakes.owned i hadds hn₁ with hkey | ⟨n, hadds', hfun, hni⟩
    · exact hkey
    · have hfun := hfun.grows hg hadds'.2
      have hunder := hmakes.under_function hg hadds' hfun.flowId_ne
      exact absurd (hni.grows hg.tree) (hi.apart n hunder hfun.type_eq)
  · exact absurd (hbare i hc).flowId_eq hn

end Function

/-- The graph of a function is in numbers of nodes that the function owns. -/
theorem Draft.MadeFunction.fits {f : NodeId} {g : Flow.Graph} {key : Key} {body : Go.Block}
    {inside : List Event} {own : List (NodeId × Key)}
    (h : d.MadeFunction f g key body inside own) (hbare : d.Bare) :
    d.GraphFits f g key body inside own := by
  obtain ⟨d₀, d₁, hscope, hmakes, rfl, hg⟩ := h.made
  have hnumbered : d.tree.Numbered .empty own := by
    rw [← hscope]
    exact hmakes.numbered.grows hg.tree fun e he => (hmakes.adds e he).2
  refine ⟨h.history, hmakes.numbers, ?_, hnumbered.numberOf_ne_zero,
    fun key e hfind => ?_, fun i => ⟨?_, fun ⟨hi, hn⟩ => hmakes.own_of_owns hg hbare hi hn⟩,
    fun i j hi hj hn heq => ?_, fun later e earlier hsplit => ?_⟩
  · rw [h.graph_eq, Flow.Graph.ofBlocks]
    simp only [hnumbered.get?_eq]
  · have hn := hnumbered.flowId_ne_none (List.mem_of_find?_eq_some hfind)
    obtain ⟨number, hnumber⟩ := Option.ne_none_iff_exists'.mp hn
    rw [Tree.numberOf, hfind, Option.bind_some, hnumber, Option.getD_some]
  · rintro ⟨key, he⟩
    have hn := hnumbered.flowId_ne_none he
    exact ⟨hmakes.owns_function hg hbare he hn, hn⟩
  · obtain ⟨key, hi⟩ := hmakes.own_of_owns hg hbare hi hn
    obtain ⟨key', hj⟩ := hmakes.own_of_owns hg hbare hj (heq ▸ hn)
    exact congrArg Prod.fst (hnumbered.flowId_inj hi hj heq)
  · have heq := (hsplit ▸ hnumbered).flowId_eq
    rw [heq, Nat.add_comm]
    rfl

/-! ## Files -/

/-- All flow graphs are those of the functions given, in numbers of nodes that their function owns. -/
def Draft.GraphsFit (functions : List (Key × Go.Block)) (d : Draft) : Prop :=
  ∀ f < d.tree.size, (d.tree.node f).type = .functionDeclaration →
    ∀ g, (d.tree.node f).fields.flowGraph = some g → ∃ key body inside own,
      (key, body) ∈ functions ∧ d.GraphFits f g key body inside own

/-- Before anything else there are comments. -/
structure Draft.OnlyComments (d : Draft) : Prop where
  plain : ∀ i < d.tree.size, (d.tree.node i).Plain
  lt_size : ∀ c ∈ d.comments.toList, c < d.tree.size

theorem Build.comments_only {cs : List Go.Comment} (hd : d.OnlyComments) :
    Yields (comments set cs) d fun _ d' => d'.OnlyComments := by
  refine comments_yields_of ?_ hd
  intro d n offset stop hd hn
  have hsize : (d.add n).tree.size = d.tree.size + 1 := Tree.size_push
  have hplain : ∀ i < (d.add n).tree.size, ((d.add n).tree.node i).Plain := by
    intro i hi
    by_cases hlt : i < d.tree.size
    · rw [show (d.add n).tree.node i = d.tree.node i from Tree.node_push_of_lt hlt]
      exact hd.plain i hlt
    · obtain rfl : i = d.tree.size := by omega
      rw [show (d.add n).tree.node d.tree.size = n from Tree.node_push_size]
      exact hn.plain_token
  refine ⟨hplain, fun c hc => ?_⟩
  rw [Array.toList_push, List.mem_append, List.mem_singleton] at hc
  show c < (d.add n).tree.size
  rw [hsize]
  rcases hc with hc | rfl
  · exact Nat.lt_succ_of_lt (hd.lt_size c hc)
  · exact Nat.lt_succ_self _

theorem buildFile_graphs {facts : Facts} {file : Go.File} :
    Yields (buildFile set facts file) .empty fun _ d => d.GraphsFit file.functions := by
  have hempty : Draft.empty.OnlyComments :=
    ⟨fun i hi => absurd hi (Nat.not_lt_zero i), by simp [Draft.empty]⟩
  refine .bind ((Build.comments_only hempty).mono ?_)
  rintro - d₁ hd₁
  refine .bind ((Plan.build_builds _ _ (Plan.ofFile_regular file)).mono ?_)
  rintro x d₂ hbuilds
  refine .bind (checkRoot_yields.mono ?_)
  rintro - _ rfl
  obtain ⟨events, own, hmakes⟩ := hbuilds.makes
  have hg := hmakes.grows
  have hbare : d₂.Bare := by
    intro c hc
    rw [hg.comments_eq] at hc
    rw [hg.tree.node_eq c (hd₁.lt_size c hc)]
    exact hd₁.plain c (hd₁.lt_size c hc)
  refine .pure fun f hf htype g hgraph => ?_
  have hadds : d₁.Adds d₂ f := by
    refine ⟨Nat.le_of_not_lt fun hlt => ?_, hf⟩
    rw [hg.tree.node_eq f hlt] at htype
    exact (hd₁.plain f hlt).not_function htype
  obtain ⟨key, body, inside, own, hmem, hmade⟩ := hbuilds.made f hadds htype g hgraph
  exact ⟨key, body, inside, own, hmem, hmade.fits hbare⟩

/-! ## Closures -/

/-- A step that makes at most one node, of the function with this key, leaves all nodes and numbers
as they are. Only the node itself gets a number. -/
structure Draft.KeepsNumbers (d : Draft) (key : Key) (x : Option NodeId) (d' : Draft) : Prop where
  node_eq : ∀ i < d.tree.size, d'.tree.node i = d.tree.node i
  scopes_eq : d'.scopes = d.scopes.assignAll (x.toList.map fun i => (i, key))
  get?_eq : ∀ other, other ≠ key →
    d'.scopes.current.get? other = d.scopes.current.get? other

theorem Draft.KeepsNumbers.of_scopes {key : Key} {x : Option NodeId} (hg : d.Grows d')
    (hscopes : d'.scopes = d.scopes.assignAll (x.toList.map fun i => (i, key))) :
    d.KeepsNumbers key x d' := by
  refine ⟨hg.tree.node_eq, hscopes, fun other hne => ?_⟩
  rw [hscopes, Flow.IdScopes.current_assignAll]
  cases x with
  | none => rfl
  | some i =>
    show ((d.scopes.current.assign key).ids.lookup other) = _
    rw [IdScope.assign, List.lookup_cons, beq_eq_false_iff_ne.mpr hne]
    rfl

/-- A function with a scope of its own numbers its node and no other in the scope around. -/
theorem Plan.own_yields {label : String} {key : Key} {blocks : Option (List Flow.Block)}
    {fields : List (String × FieldPlan)} {steps : List Step} {functions : List (Key × Go.Block)}
    (hsteps : RegularSteps functions true steps)
    (hflow : (Head.mk (some key) .functionDeclaration fields).Unnumbered) :
    Yields ((Plan.node (.own blocks) ⟨some key, .functionDeclaration, fields⟩ none steps).build set
      label) d fun x d' => d.Grows d' ∧ d'.scopes = d.scopes.assignAll (x.toList.map (·, key)) := by
  rw [Plan.build]
  refine .bind ?_
  rintro _ _ ⟨⟩
  refine .bind (Fill.gather_yields ((runSteps_builds steps [] hsteps).mono ?_))
  rintro made ⟨d₁, cs⟩ hx
  obtain ⟨events, own, hmakes⟩ := (hx d.enter (.refl _)).makes
  refine .bind (Build.leaveScope_yields.mono ?_)
  rintro graph _ ⟨rfl, -⟩
  refine .bind (.bind (.get (Build.node_yields.mono fun x d₂ hmade => .pure ?_)))
  obtain ⟨events', hmakes'⟩ := hmakes.function hmade hflow.get?
  exact ⟨hmakes'.grows, hmakes'.scopes_eq⟩

/-- A closure keeps the numbers of the function around it. -/
theorem Plan.funcLit_keepsNumbers {facts : Facts} (type : Go.FuncType) (body : Go.Block)
    (label : String) : Yields ((Plan.ofExpr facts (.funcLit type body)).build set label) d
      (d.KeepsNumbers (Go.Expr.funcLit type body).key) := by
  have hregular : (Plan.ofExpr facts (.funcLit type body)).Regular _ := Plan.ofExpr_regular _
  obtain ⟨func, typeParams, params, results⟩ := type
  rw [Plan.ofExpr, Plan.funcLit] at hregular ⊢
  obtain ⟨⟨⟨hhead, -⟩, hsteps⟩, -⟩ := hregular
  rw [Plan.build]
  refine .bind ((Plan.own_yields hsteps hhead.unnumbered).mono ?_)
  rintro x d₁ ⟨hg₁, hscopes₁⟩
  cases x with
  | some i => exact .pure (.of_scopes hg₁ hscopes₁)
  | none =>
    -- What is left is a node without parts.
    rw [Plan.native, List.zip_nil_right, List.flatMap_nil, Plan.build]
    refine .bind (.pure (.bind (Fill.gather_yields (.pure (.bind (.pure (.bind ?_)))))))
    refine .bind (.get (Build.node_yields.mono fun x d₂ hmade => .pure ?_))
    have htops := hmade.tops (Head.Unnumbered.get? (by
      simp [Head.Unnumbered, Plan.nativeFields, Node.flowIdName]))
    rcases htops with ⟨-, rfl, rfl⟩ | ⟨rfl, n, ht⟩
    · exact .of_scopes hg₁ hscopes₁
    · refine .of_scopes (hg₁.trans ht.grows) ?_
      rw [ht.scopes_eq, hscopes₁]
      rfl

/-! ## Conversion -/

/-- All flow graphs of a file are those of its functions, in numbers of nodes that their function owns.
Where a closure is made, at whichever point, all nodes keep the numbers that they have, and keys other
than that of the closure stand for the numbers that they stood for. -/
theorem convertFile_graphs {file : Go.File} {source : SourceFile} {symbols : SymbolTable}
    {options : ConvertOptions} {r : Converted}
    (h : convertFile file source symbols options = .ok r) :
    (∃ d, buildFile ⟨source, options.strict⟩ (factsOf file source.text symbols options) file .empty =
      .ok r.root d ∧ r.tree = d.tree ∧ d.GraphsFit file.functions) ∧
    ∀ (set : Setting) (facts : Facts) (type : Go.FuncType) (body : Go.Block) (label : String)
      (d : Draft) (x : Option NodeId) (d' : Draft),
      (Plan.ofExpr facts (.funcLit type body)).build set label d = .ok x d' →
        d.KeepsNumbers (Go.Expr.funcLit type body).key x d' := by
  refine ⟨?_, fun set facts type body label d x d' hx =>
    Plan.funcLit_keepsNumbers type body label x d' hx⟩
  unfold convertFile at h
  split at h
  · rename_i x d hd
    cases h
    exact ⟨d, hd, rfl, buildFile_graphs x d hd⟩
  · cases h

/-- A function with a closure in it. -/
def closureFile : Go.File :=
  let callOf (pos : Go.Pos) (name : String) : Go.Stmt :=
    .expr (.call ⟨.ident ⟨pos, name, none⟩, pos + 1, [], none, pos + 2⟩)
  let signature (pos opening : Go.Pos) : Go.FuncType :=
    ⟨some pos, none, ⟨some opening, [], some (opening + 1)⟩, none⟩
  let closure : Go.Expr := .funcLit (signature 28 32) ⟨35, [callOf 37 "x"], 41⟩
  ⟨0, ⟨8, "p", none⟩,
    [.func none ⟨16, "f", none⟩ (signature 11 17)
      (some ⟨20, [.assign [.ident ⟨23, "g", none⟩] 25 .define [closure], callOf 44 "g"], 48⟩)], []⟩

/-- The source of `closureFile`. -/
def closureSource : SourceFile :=
  .ofText "p.go" "package p\n\nfunc f() \x7b\n\tg := func() \x7b x() \x7d\n\tg()\n\x7d\n"

/-- The closure at place 23 and the function at place 32 count for themselves. -/
theorem convertFile_graphs_closureFile :
    ∃ r, convertFile closureFile closureSource .empty ⟨true, false⟩ = .ok r ∧
      (r.tree.node 23).fields.flowGraph = some ⟨[⟨[4], []⟩]⟩ ∧
      (r.tree.node 32).fields.flowGraph = some ⟨[⟨[5, 8], []⟩]⟩ ∧
      ∃ d : Draft, r.tree = d.tree ∧ d.GraphsFit closureFile.functions := by
  have hok : (match convertFile closureFile closureSource .empty ⟨true, false⟩ with
      | .ok r => decide ((r.tree.node 23).fields.flowGraph = some ⟨[⟨[4], []⟩]⟩ ∧
        (r.tree.node 32).fields.flowGraph = some ⟨[⟨[5, 8], []⟩]⟩)
      | .error _ => false) = true := by
    decide +kernel
  cases h : convertFile closureFile closureSource .empty ⟨true, false⟩ with
  | error e =>
    rw [h] at hok
    cases hok
  | ok r =>
    rw [h] at hok
    obtain ⟨hclosure, hfunction⟩ := of_decide_eq_true hok
    obtain ⟨⟨d, -, htree, hd⟩, -⟩ := convertFile_graphs h
    exact ⟨r, rfl, hclosure, hfunction, d, htree, hd⟩

end LosslessGo
