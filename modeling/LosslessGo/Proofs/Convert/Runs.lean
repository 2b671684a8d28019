import LosslessGo.Proofs.Convert.Coverage
import LosslessGo.Proofs.Plan.Symbols

/-!
# Two runs of a conversion

A file is converted twice, in the same mode or the second time in lenient mode, and what is known of
its symbols may differ.

* `convertFile_along`: the second run goes along with the first.
* `convertFile_lenient`: lenient mode converts what strict mode converts, to the same result.
* `convertFile_symbols`: symbols have no influence on the result but in the fields that hold what is
  known of them.
-/

namespace LosslessGo

variable {hidden : Hidden} {set : Setting} {strict : Bool} {facts facts' : Facts} {file : Go.File}

/-- A root that ends with the source is accepted. -/
theorem checkRoot_of_stop_eq {d : Draft} {i : NodeId} (h : (d.tree.node i).stop = set.size) :
    checkRoot set (some i) d = .ok () d := by
  simp [checkRoot, h]

section Build

variable (hmode : strict = true → set.strict = true) (hshown : hidden.ShowsNumbers)
  (hplan : (Plan.ofFile facts file).without hidden = (Plan.ofFile facts' file).without hidden)

include hmode hshown hplan

theorem ofFile_along {d d' : Draft} (hd : d.Alike hidden d') :
    Along set strict ((Plan.ofFile facts file).build set "") d
      ((Plan.ofFile facts' file).build (set.inMode strict) "") d' fun _ => Draft.Alike hidden := by
  have h := Plan.build_along hmode hshown "" (Plan.ofFile facts file) hd
  have h' : Along (set.inMode strict) strict
      ((Plan.ofFile facts' file).build (set.inMode strict) "") d'
      (((Plan.ofFile facts' file).without hidden).build (set.inMode strict) "") d'
      fun _ => Draft.Alike hidden :=
    Plan.build_along id hshown "" _ (.refl hidden d')
  rw [hplan] at h
  exact (h.join h').mono fun _ _ _ ⟨_, hq, hr⟩ => hq.trans hr.symm

theorem buildFile_along :
    Along set strict (buildFile set facts file) .empty
      (buildFile (set.inMode strict) facts' file) .empty fun _ => Draft.Alike hidden := by
  have hempty : Draft.empty.Sound set := ⟨.empty, by simp [Draft.empty]⟩
  refine .bind (((Build.comments_along hmode (.refl hidden .empty)).and_yields
    (Build.comments_yields hempty)).mono ?_)
  rintro - d₁ d₁' ⟨hs₁, h₁⟩
  refine .bind (((ofFile_along hmode hshown hplan h₁).and_yields (ofFile_yields hs₁)).mono ?_)
  rintro x d₂ d₂' ⟨⟨-, i, rfl, hroot⟩, h₂⟩
  -- The root ends with the source in both runs, so neither is refused.
  refine .bind (Q := fun _ => Draft.Alike hidden) ?_
  rw [Along, checkRoot_of_stop_eq hroot.stop_eq]
  exact ⟨d₂', checkRoot_of_stop_eq ((h₂.tree.node i).stop_eq ▸ hroot.stop_eq), .pure h₂⟩

end Build

/-! ## Converted files -/

/-- The result without the hidden fields of its nodes. -/
def Converted.without (hidden : Hidden) (r : Converted) : Converted :=
  { r with tree := r.tree.without hidden }

@[simp] theorem Converted.without_nothing (r : Converted) : r.without (fun _ => []) = r := by
  simp [without]

theorem convertFile_along (hidden : Hidden) (file : Go.File) (source : SourceFile)
    (symbols symbols' : SymbolTable) (options options' : ConvertOptions)
    (hmode : options'.strict = true → options.strict = true) (hshown : hidden.ShowsNumbers)
    (hplan : (Plan.ofFile (factsOf file source.text symbols options) file).without hidden =
      (Plan.ofFile (factsOf file source.text symbols' options') file).without hidden) :
    ExceptAlong ⟨source, options.strict⟩ options'.strict (convertFile file source symbols options)
      (convertFile file source symbols' options')
      fun r r' => r.without hidden = r'.without hidden := by
  have h : Along ⟨source, options.strict⟩ options'.strict
      (buildFile _ (factsOf file source.text symbols options) file) .empty
      (buildFile _ (factsOf file source.text symbols' options') file) .empty
      fun _ => Draft.Alike hidden :=
    buildFile_along hmode hshown hplan
  unfold convertFile
  rw [Along] at h
  cases hx : buildFile ⟨source, options.strict⟩ (factsOf file source.text symbols options) file
      .empty with
  | ok root d =>
    rw [hx] at h
    obtain ⟨d', hy, hd⟩ := h
    change buildFile ⟨source, options'.strict⟩ _ file .empty = _ at hy
    have htree : d.tree.without hidden = d'.tree.without hidden := hd.tree
    simp only [hy]
    refine .of_ok ?_
    simp only [Converted.without, htree, hd.comments_eq, hd.tokensByOffset_eq]
  | error e d =>
    rw [hx] at h
    refine ⟨by rintro _ ⟨⟩, ?_⟩
    rintro _ ⟨⟩
    refine ⟨h.1, fun hstrict => ?_⟩
    obtain ⟨d', hy⟩ := h.2 hstrict
    change buildFile ⟨source, options'.strict⟩ _ file .empty = _ at hy
    simp only [hy]

/-- What strict mode converts, lenient mode converts to the same result. -/
theorem convertFile_lenient {file : Go.File} {source : SourceFile} {symbols : SymbolTable}
    {describe : Bool} {r : Converted}
    (h : convertFile file source symbols ⟨true, describe⟩ = .ok r) :
    convertFile file source symbols ⟨false, describe⟩ = .ok r := by
  have halong := convertFile_along (fun _ => []) file source symbols symbols ⟨true, describe⟩
    ⟨false, describe⟩ (fun _ => rfl) (fun _ => by simp) rfl
  obtain ⟨r', hr', heq⟩ := halong.ok r h
  rw [hr', show r = r' by simpa using heq]

theorem convertFile_lenient_commentedFile :
    ∃ r, convertFile commentedFile commentedSource .empty ⟨true, true⟩ = .ok r ∧
      convertFile commentedFile commentedSource .empty ⟨false, true⟩ = .ok r := by
  have hok : (convertFile commentedFile commentedSource .empty ⟨true, true⟩).isOk = true := by
    decide +kernel
  cases h : convertFile commentedFile commentedSource .empty ⟨true, true⟩ with
  | error e =>
    rw [h] at hok
    cases hok
  | ok r => exact ⟨r, rfl, convertFile_lenient h⟩

/-- Two conversions of a file in one mode, with symbols of whatever kind and identifiers described or
not, fail with the same error, or give the same result but for what is known of symbols. -/
theorem convertFile_symbols (file : Go.File) (source : SourceFile) (symbols symbols' : SymbolTable)
    (strict describe describe' : Bool) :
    (convertFile file source symbols ⟨strict, describe⟩).map (·.without symbolFields) =
      (convertFile file source symbols' ⟨strict, describe'⟩).map (·.without symbolFields) := by
  have hshown : symbolFields.ShowsNumbers := by
    intro type
    cases type <;> decide
  have halong := convertFile_along symbolFields file source symbols symbols' ⟨strict, describe⟩
    ⟨strict, describe'⟩ id hshown (Plan.ofFile_without _ _ file)
  cases h : convertFile file source symbols ⟨strict, describe⟩ with
  | ok r =>
    obtain ⟨r', hr', heq⟩ := halong.ok r h
    rw [hr']
    exact congrArg Except.ok heq
  | error e =>
    rw [(halong.error e h).2 rfl]

end LosslessGo
