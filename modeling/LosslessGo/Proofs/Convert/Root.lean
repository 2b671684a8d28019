import LosslessGo.Convert
import LosslessGo.Proofs.Plan.Keeps
import LosslessGo.Proofs.Plan.OfSyntax

/-!
# The root of a file

A converted file has a root, which reaches to the end of the source. In strict mode nothing but blanks
is before it (`buildFile_yields`, `convertFile_root`).
-/

namespace LosslessGo

variable {set : Setting} {d : Draft}

/-! ## Rules -/

/-- A step of one part makes its node and gathers it. -/
theorem runSteps_one_yields {label : String} {p : Plan} {steps : List Step} {made : Made}
    {f : Filling} {Q : Made → Filling → Prop}
    (h : Yields (p.build set label) f.draft fun x d' =>
      Yields (Fill.append set x) ⟨d', f.children⟩ fun _ f' =>
        Yields (runSteps set steps (made ++ [(label, x)])) f' Q) :
    Yields (runSteps set (.one label p :: steps) made) f Q := by
  rw [Step.one, runSteps]
  have hparts : Yields (buildParts set [⟨label, label, p⟩]) f.draft fun new d' =>
      ∃ x, new = [(label, x)] ∧ Yields (Fill.append set x) ⟨d', f.children⟩ fun _ f' =>
        Yields (runSteps set steps (made ++ [(label, x)])) f' Q := by
    rw [buildParts]
    exact .bind (h.mono fun x _ hx => .bind (.pure (.pure ⟨x, rfl, hx⟩)))
  refine .bind ((Fill.build_yields hparts).mono ?_)
  rintro new ⟨d', cs⟩ ⟨rfl, x, rfl, hx⟩
  exact .bind (.bind (hx.mono fun _ _ h' => .pure h'))

/-- A node over children starts with the first and stops with the last. -/
theorem Build.head_over {o : Outcome} {h : Head} {children : List NodeId} {first last : Node}
    (hfirst : (children.map d.tree.node).head? = some first)
    (hlast : (children.map d.tree.node).getLast? = some last) :
    Yields (head set o h children) d fun x d' =>
      ∃ i ∈ x, (d'.tree.node i).offset = first.offset ∧ (d'.tree.node i).stop = last.stop := by
  refine .bind (.get (node_yields.mono ?_))
  rintro x d' hmade
  cases hmade with
  | none he => simp [he] at hfirst
  | leaf n key he => simp [he] at hfirst
  | inner c c' hc hc' =>
    obtain ⟨fields, htree⟩ := d.number_tree
      (innerNode d.tree c c' children h.type (fieldValues d o h.fields)) h.origin
    refine ⟨d.tree.size, rfl, ?_⟩
    rw [htree, Tree.node_push_size]
    simp only [List.head?_map, List.getLast?_map, hc, hc', Option.map_some, Option.some.injEq]
      at hfirst hlast
    obtain rfl := hfirst
    obtain rfl := hlast
    exact ⟨rfl, rfl⟩

/-! ## The package clause -/

/-- Where the text starts that the nodes of a file account for. -/
def leadOf (set : Setting) : Option Nat := if set.strict then some 0 else none

theorem leadOf_eq_none (h : set.strict = false) : leadOf set = none := by simp [leadOf, h]

theorem eq_zero_of_mem_leadOf {a : Nat} (h : a ∈ leadOf set) : a = 0 ∧ set.strict = true := by
  unfold leadOf at h
  split at h
  · cases h
    exact ⟨rfl, ‹_›⟩
  · cases h

/-- Nothing but blanks is before a node that leads a file. -/
def Leads (set : Setting) (d : Draft) (x : Option NodeId) : Prop :=
  (x = none → set.strict = false) ∧
    ∀ a ∈ leadOf set, ∀ i ∈ x, Text.Blank set.source a (d.tree.node i).offset

theorem Filling.Kept.ne_nil {f : Filling} {n : Node} (hn : f.nodes.getLast? = some n) :
    f.children ≠ #[] := by
  intro he
  simp [Filling.nodes, he] at hn

theorem packageClause_yields {facts : Facts} {file : Go.File} {label : String} (hs : d.Sound set) :
    Yields ((Plan.packageClause facts file).build set label) d fun x d' => Leads set d' x := by
  rw [Plan.packageClause, Plan.typed, Plan.build]
  refine .bind (.pure (.bind (Fill.gather_yields ?_)))
  have hname : (Plan.ofIdent facts file.name).Regular [] :=
    Plan.ofIdent_holds (.regular _) facts file.name
  have hsteps : RegularSteps [] false [Step.one "Name" (Plan.ofIdent facts file.name)] :=
    regularSteps_iff.mpr (by simpa using hname)
  rw [runSteps, Plan.build]
  refine .bind ((Fill.build_yields Build.expectedLeaf_yields).mono ?_)
  rintro x ⟨d₁, cs⟩ ⟨rfl, hmade⟩
  have hk₁ := hmade.keeps hs (by decide)
  have hkept : Filling.Kept set (leadOf set) ⟨d₁, #[]⟩ := Filling.kept_empty hk₁.sound
  cases hmade with
  | none hlenient =>
    rw [leadOf_eq_none hlenient] at hkept
    refine (runSteps_keeps _ _ hsteps hkept (fun h => by cases h) (.inl rfl)).mono ?_
    rintro made ⟨d₂, cs⟩ -
    refine .bind (.pure (.bind ?_))
    exact fun y d₃ _ => .pure
      ⟨fun _ => hlenient, fun a ha => absurd (eq_zero_of_mem_leadOf ha).2 (by simp [hlenient])⟩
  | some n stop hn =>
    have hr := hkept.reaches_start (a := 0) rfl fun a ha => (eq_zero_of_mem_leadOf ha).1
    refine .bind ((Fill.appendFrom_yields hr (hk₁.lt_size _ rfl)).mono ?_)
    rintro - f₂ ⟨hx₂, hk₂, hlast₂⟩
    have hne := Filling.Kept.ne_nil hlast₂
    refine (runSteps_keeps _ _ hsteps hk₂ (fun h => by cases h) (.inr ⟨rfl, hne⟩)).mono ?_
    rintro made ⟨d₃, cs⟩ ⟨hx₃, hk₃⟩
    have hne₃ : cs.toList.map d₃.tree.node ≠ [] := by
      simpa using hx₃.ne_empty hne
    refine .bind (.pure (.bind ((Build.head_over (List.head?_eq_some_head hne₃)
      (List.getLast?_eq_some_getLast hne₃)).mono ?_)))
    rintro y d₄ ⟨i, hi, hoff, -⟩
    obtain rfl : y = some i := hi
    refine .pure ⟨by rintro ⟨⟩, ?_⟩
    rintro a ha _ ⟨⟩
    rw [hoff]
    exact hk₃.lead a ha _ (List.head?_eq_some_head hne₃)

/-! ## The file -/

/-- What is known of the root of a file. -/
structure IsRoot (set : Setting) (d : Draft) (i : NodeId) : Prop where
  lt_size : i < d.tree.size
  stop_eq : (d.tree.node i).stop = set.size
  blank : set.strict = true → Text.Blank set.source 0 (d.tree.node i).offset

theorem ofFile_yields {facts : Facts} {file : Go.File} (hs : d.Sound set) :
    Yields ((Plan.ofFile facts file).build set "") d fun x d' =>
      Keeps set d x d' ∧ ∃ i ∈ x, IsRoot set d' i := by
  have hkeeps : Yields ((Plan.ofFile facts file).build set "") d (Keeps set d) :=
    Plan.build_keeps "" _ (Plan.ofFile_regular file) hs
  have hdecls : (Plan.group "Decls([]Decl)"
      (itemSteps "Decls" (file.decls.map (Plan.ofDecl facts)))).Regular file.functions :=
    Plan.decls_holds (T := .regular _) (List.Subset.refl _)
  suffices h : Yields ((Plan.ofFile facts file).build set "") d fun x d' =>
      ∃ i ∈ x, (d'.tree.node i).stop = set.size ∧
        ∀ a ∈ leadOf set, Text.Blank set.source a (d'.tree.node i).offset from
    (hkeeps.and h).mono fun x d' ⟨hk, i, hi, hstop, hblank⟩ =>
      ⟨hk, i, hi, hk.lt_size i hi, hstop, fun hstrict => hblank 0 (by simp [leadOf, hstrict])⟩
  rw [Plan.ofFile, Plan.typed, Plan.build]
  refine .bind (.pure (.bind (Fill.gather_yields ?_)))
  -- The package clause comes first, as it is.
  have hpackage : (Plan.packageClause facts file).Regular [] :=
    Plan.packageClause_holds (.regular _) facts file
  refine runSteps_one_yields
    (((Plan.build_keeps _ _ hpackage hs).and (packageClause_yields hs)).mono ?_)
  rintro x d₁ ⟨hk₁, hlenient, hlead⟩
  have hfirst : Yields (Fill.append set x) ⟨d₁, #[]⟩ fun _ f' =>
      f'.Kept set (leadOf set) ∧ (leadOf set = none ∨ f'.children ≠ #[]) := by
    have hempty : Filling.Kept set (leadOf set) ⟨d₁, #[]⟩ := Filling.kept_empty hk₁.sound
    cases x with
    | none => exact .pure ⟨hempty, .inl (leadOf_eq_none (hlenient rfl))⟩
    | some i =>
      have hr : Filling.Reaches set (leadOf set) (d₁.tree.node i).offset ⟨d₁, #[]⟩ :=
        ⟨hempty, by simp [Filling.nodes], fun _ a ha => hlead a ha i rfl⟩
      exact .bind (.get (Fill.push_yields ⟨(hr.push (hk₁.lt_size i rfl) rfl).toKept, by simp⟩))
  refine hfirst.mono ?_
  rintro - f₁ ⟨hkept₁, hstart₁⟩
  -- The declarations follow, and the end of the file.
  refine runSteps_one_yields ((Plan.build_keeps _ _ hdecls hkept₁.sound).mono ?_)
  rintro y d₂ hk₂
  refine (Fill.append_yields (hkept₁.grows hk₂.grows hk₂.sound) hk₂.lt_size hstart₁).mono ?_
  rintro - f₂ ⟨hx₂, hkept₂, -⟩
  have hstart₂ := hstart₁.imp_right fun hne => hx₂.ne_empty hne
  refine runSteps_one_yields ((Build.endMark_keeps hkept₂.sound).mono ?_)
  rintro _ d₃ ⟨hk₃, e, rfl, hstop⟩
  refine (Fill.append_yields (hkept₂.grows hk₃.grows hk₃.sound) hk₃.lt_size hstart₂).mono ?_
  rintro - ⟨d₄, cs⟩ ⟨hx₄, hkept₄, hlast⟩
  have hnodes : (cs.toList.map d₄.tree.node).getLast? = some (d₃.tree.node e) := hlast e rfl
  obtain ⟨first, hhead⟩ : ∃ n, (cs.toList.map d₄.tree.node).head? = some n := by
    cases hcs : cs.toList.map d₄.tree.node with
    | nil => simp [hcs] at hnodes
    | cons n ns => exact ⟨n, rfl⟩
  refine .pure (.bind (.pure (.bind ((Build.head_over hhead hnodes).mono ?_))))
  rintro z d₅ ⟨i, hi, hoff, hend⟩
  refine .pure ⟨i, hi, hend.trans hstop, fun a ha => ?_⟩
  rw [hoff]
  exact hkept₄.lead a ha first hhead

/-- Comments become leaves. -/
theorem Build.comments_yields {cs : List Go.Comment} (hs : d.Sound set) :
    Yields (comments set cs) d fun _ d' => d'.Sound set := by
  refine comments_yields_of ?_ hs
  intro d n offset stop hd hn
  have hk := (LeafMade.some n stop hn).keeps hd (by decide)
  refine ⟨hk.sound.tree, ?_⟩
  simp only [Array.toList_push, List.mem_append, List.mem_singleton]
  rintro c (hc | rfl)
  · exact hk.sound.comments c hc
  · exact hk.lt_size _ rfl

theorem checkRoot_yields {x : Option NodeId} : Yields (checkRoot set x) d fun _ d' => d = d' := by
  intro _ d' hcheck
  unfold checkRoot at hcheck
  split at hcheck
  · cases hcheck
    rfl
  · simp only at hcheck
    split at hcheck
    · cases hcheck
    · cases hcheck
      rfl

/-- A file has a root. -/
theorem buildFile_yields {facts : Facts} {file : Go.File} :
    Yields (buildFile set facts file) .empty fun x d =>
      d.Sound set ∧ ∃ i, x = some i ∧ IsRoot set d i := by
  have hempty : Draft.empty.Sound set := ⟨.empty, by simp [Draft.empty]⟩
  refine .bind ((Build.comments_yields hempty).mono ?_)
  rintro - d₁ hs₁
  refine .bind ((ofFile_yields hs₁).mono ?_)
  rintro x d₂ ⟨hk₂, i, hi, hroot⟩
  refine .bind (checkRoot_yields.mono ?_)
  rintro - _ rfl
  exact .pure ⟨hk₂.sound, i, hi, hroot⟩

end LosslessGo
