import Mathlib.Data.List.Induction
import LosslessGo.Batch.Convert
import LosslessGo.Proofs.Document.Comments
import LosslessGo.Proofs.Entries

/-!
# The files of a batch do not disturb each other

A batch is converted one file after the other (`convert_concat`), and what is known of it follows from
what one more file adds. Only a panic at one file takes the others with it.

* `SourceUnit.convert_eq_none_iff`, `convert_eq_none_iff`: which files panic, and that a batch does where
  one of them does.
* `get?_convert`: the document under a name is that of the last file of the name.
* `ordered_convert`: the names are in order, each once.
* `errors_convert`: every failure is reported once, in the order of the files.
* `data_convert_perm`: the order of files of different names does not matter.
* `convertWith_eq`: workers that keep the order of the files make no difference.
* `convertWith_isolates`: all of this for workers.
* `convertWith_strayUnits`: a batch that is lost by one comment.
-/

namespace LosslessGo

namespace Collection

variable {c c' : Collection} {name document : String}

theorem get?_insert (c : Collection) (name name' document : String) :
    (c.insert name document).get? name' = if name' = name then some document else c.get? name' := by
  rw [get?, insert, insertEntry_eq, Entries.lookup_set, get?]

/-- A collection has the names under which it has documents. -/
theorem mem_names_iff : name ∈ c.names ↔ (c.get? name).isSome := by
  rw [names, List.mem_map, get?, List.lookup_isSome_iff]
  exact exists_congr fun e => and_congr_right fun _ => by rw [beq_iff_eq, eq_comm]

/-- The names stand in ascending order, each once. -/
def Ordered (c : Collection) : Prop := Entries.Ordered c.entries

namespace Ordered

theorem empty : Collection.empty.Ordered := List.Pairwise.nil

theorem insert (h : c.Ordered) : (c.insert name document).Ordered := by
  rw [Ordered, Collection.insert, insertEntry_eq]
  exact Entries.Ordered.set h

theorem names (h : c.Ordered) : c.names.Pairwise (· < ·) := List.pairwise_map.mpr h

/-- Collections in order are equal if they have the same documents. -/
theorem ext (h : c.Ordered) (h' : c'.Ordered) (hget : ∀ name, c.get? name = c'.get? name) : c = c' :=
  congrArg Collection.mk (Entries.Ordered.ext h h' hget)

end Ordered

end Collection

namespace Batch

variable {units units' : List SourceUnit} {config : Config} {r r' : Report Collection}

namespace SourceUnit

variable {u : SourceUnit} {o : Outcome}

/-- What is reported of a file. -/
def report? (u : SourceUnit) (config : Config) : Option FileError :=
  ((u.convert config).bind (·.error)).map fun e => ⟨u.name, e⟩

/-- The file is converted, but the first of its comments that is not written is cut inside of a
character. -/
def Panics (u : SourceUnit) (config : Config) : Prop :=
  ∃ file, u.parsed = .ok file ∧
    ∃ r, convertFile file (.ofText u.name u.source) u.symbols (convertOptions config) = .ok r ∧
      ∃ before i after, r.comments = before ++ i :: after ∧
        (∀ j ∈ before, ∃ text, commentText (r.tree.node j) = .ok text) ∧
        ∃ t, (r.tree.node i).token = some t ∧ t.SplitsCharacter

/-- An outcome goes by the name of its file. -/
theorem name_of_convert (h : u.convert config = some o) : o.name = u.name := by
  unfold convert at h
  split at h
  · cases h
    rfl
  · split at h <;> cases h <;> rfl

theorem document_eq_panic_iff {file : Go.File} :
    u.document config file = .error .panic ↔
      ∃ r, convertFile file (.ofText u.name u.source) u.symbols (convertOptions config) = .ok r ∧
        r.document config.indentUnit none = .error .panic := by
  unfold document
  cases convertFile file (.ofText u.name u.source) u.symbols (convertOptions config) with
  | error e => simp
  | ok r => simp

/-- A file has no outcome where its comments panic. -/
theorem convert_eq_none_iff : u.convert config = none ↔ u.Panics config := by
  have hconvert : u.convert config = none ↔
      ∃ file, u.parsed = .ok file ∧ u.document config file = .error .panic := by
    unfold convert
    cases u.parsed with
    | error message => simp
    | ok file =>
      cases h : u.document config file with
      | ok document => simp [h]
      | error fault => cases fault <;> simp [h]
  simp only [hconvert, document_eq_panic_iff, document_eq_error_iff, commentText_eq_panic_iff, Panics]

end SourceUnit

/-! ## One more file -/

/-- A file adds its document, and its error behind all others. -/
theorem Report.eq_add (r : Report Collection) (o : Outcome) :
    r.add o = ⟨r.data.insert o.name o.document,
      r.errors ++ (o.error.map fun e => ⟨o.name, e⟩).toList⟩ := by
  unfold Report.add
  split
  · rename_i h
    simp [h, Report.change]
  · rename_i e h
    simp [h, Report.change, Report.record]

theorem convert_concat (units : List SourceUnit) (u : SourceUnit) (config : Config) :
    convert (units ++ [u]) config =
      (convert units config).bind fun r => (u.convert config).map r.add := by
  unfold convert
  rw [List.mapM_append]
  cases units.mapM (SourceUnit.convert · config) with
  | none => rfl
  | some outcomes => cases h : u.convert config <;> simp [h]

/-- Where there is a report of all files, there is one of those before the last, and an outcome of the
last. -/
theorem of_convert_concat {u : SourceUnit} (h : convert (units ++ [u]) config = some r) :
    ∃ r' o, convert units config = some r' ∧ u.convert config = some o ∧ r = r'.add o := by
  rw [convert_concat, Option.bind_eq_some_iff] at h
  obtain ⟨r', hr', h⟩ := h
  obtain ⟨o, ho, rfl⟩ := Option.map_eq_some_iff.mp h
  exact ⟨r', o, hr', ho, rfl⟩

/-! ## All files -/

/-- There is no report where a file has no outcome. -/
theorem convert_eq_none_iff : convert units config = none ↔ ∃ u ∈ units, u.Panics config := by
  induction units using List.reverseRecOn with
  | nil => simp [convert]
  | append_singleton units u ih =>
    have hstep : convert (units ++ [u]) config = none ↔
        convert units config = none ∨ u.convert config = none := by
      rw [convert_concat]
      cases convert units config <;> simp
    rw [hstep, ih, SourceUnit.convert_eq_none_iff]
    simp [or_and_right, exists_or]

/-- The document under a name is that of the last file of the name. -/
theorem get?_convert (h : convert units config = some r) (name : String) :
    r.data.get? name = (units.filter (·.name = name)).getLast?.bind fun u =>
      (u.convert config).map (·.document) := by
  induction units using List.reverseRecOn generalizing r with
  | nil =>
    cases h
    rfl
  | append_singleton units u ih =>
    obtain ⟨r, o, hr, ho, rfl⟩ := of_convert_concat h
    rw [Report.eq_add, Collection.get?_insert, SourceUnit.name_of_convert ho, ih hr,
      List.filter_append]
    by_cases hname : u.name = name
    · simp [hname, ho]
    · simp [hname, Ne.symm hname]

theorem ordered_convert (h : convert units config = some r) : r.data.Ordered := by
  induction units using List.reverseRecOn generalizing r with
  | nil =>
    cases h
    exact .empty
  | append_singleton units u ih =>
    obtain ⟨r, o, hr, -, rfl⟩ := of_convert_concat h
    rw [Report.eq_add]
    exact (ih hr).insert

/-- Every failure is reported once, in the order of the files. -/
theorem errors_convert (h : convert units config = some r) :
    r.errors = units.filterMap (·.report? config) := by
  induction units using List.reverseRecOn generalizing r with
  | nil =>
    cases h
    rfl
  | append_singleton units u ih =>
    obtain ⟨r, o, hr, ho, rfl⟩ := of_convert_concat h
    rw [Report.eq_add, SourceUnit.name_of_convert ho, ih hr, List.filterMap_append]
    cases herror : o.error <;> simp [SourceUnit.report?, ho, herror]

theorem mem_names_convert (h : convert units config = some r) {name : String} :
    name ∈ r.data.names ↔ ∃ u ∈ units, u.name = name := by
  induction units using List.reverseRecOn generalizing r with
  | nil =>
    cases h
    simp [Collection.names, Collection.empty, Report.ofData]
  | append_singleton units u ih =>
    obtain ⟨r, o, hr, ho, rfl⟩ := of_convert_concat h
    have hunits : (∃ v ∈ units ++ [u], v.name = name) ↔
        (∃ v ∈ units, v.name = name) ∨ u.name = name := by
      simp [or_and_right, exists_or]
    rw [hunits, ← ih hr, Collection.mem_names_iff, Collection.mem_names_iff, Report.eq_add,
      Collection.get?_insert, SourceUnit.name_of_convert ho]
    by_cases hname : u.name = name
    · simp [hname]
    · simp [hname, Ne.symm hname]

/-! ## Order of files -/

/-- Of files of different names, at most one has a given name. -/
theorem length_filter_name_le (h : (units.map (·.name)).Nodup) (name : String) :
    (units.filter (·.name = name)).length ≤ 1 := by
  have hcount : (units.filter (·.name = name)).length = (units.map (·.name)).count name := by
    rw [List.count, List.countP_map, List.countP_eq_length_filter]
    congr 1
  rw [hcount]
  exact List.nodup_iff_count.mp h name

/-- Two orders of at most one file are the same. -/
theorem eq_of_perm_of_length_le {α : Type} {xs ys : List α} (h : xs.Perm ys) (hlength : ys.length ≤ 1) :
    xs = ys := by
  match ys, hlength with
  | [], _ => exact h.eq_nil
  | [y], _ => exact List.perm_singleton.mp h

/-- Whether files panic does not depend on their order. -/
theorem exists_convert_of_perm (hperm : units'.Perm units) (h : convert units config = some r) :
    ∃ r', convert units' config = some r' := by
  rw [← Option.ne_none_iff_exists', ne_eq, convert_eq_none_iff]
  rintro ⟨u, hu, hpanics⟩
  rw [convert_eq_none_iff.mpr ⟨u, hperm.mem_iff.mp hu, hpanics⟩] at h
  cases h

theorem data_convert_perm (hperm : units'.Perm units) (hnames : (units.map (·.name)).Nodup)
    (h' : convert units' config = some r') (h : convert units config = some r) :
    r'.data = r.data := by
  refine (ordered_convert h').ext (ordered_convert h) fun name => ?_
  have hfilter : units'.filter (·.name = name) = units.filter (·.name = name) :=
    eq_of_perm_of_length_le (hperm.filter _) (length_filter_name_le hnames name)
  rw [get?_convert h', get?_convert h, hfilter]

/-! ## Workers -/

/-- There is a pool of any size, and outcomes come back in the order of the files, if all files have one. -/
structure Workers.InOrder (w : Workers) : Prop where
  failure?_eq : ∀ threads, w.failure? threads = none
  collect_eq : ∀ f units, w.collect f units = units.mapM f

/-- Workers that keep the order of the files make no difference, but that a missing pool is reported
before everything else. -/
theorem convertWith_eq {w : Workers} (h : ∀ f units, w.collect f units = units.mapM f)
    (units : List SourceUnit) (config : Config) :
    convertWith w units config =
      (convert units config).map fun r => ⟨r.data, (w.report config).errors ++ r.errors⟩ := by
  have hfold (outcomes : List Outcome) : outcomes.foldl Report.add (w.report config) =
      ⟨(outcomes.foldl Report.add (.ofData .empty)).data,
        (w.report config).errors ++ (outcomes.foldl Report.add (.ofData .empty)).errors⟩ := by
    induction outcomes using List.reverseRecOn with
    | nil =>
      unfold Workers.report
      split <;> rfl
    | append_singleton outcomes o ih =>
      rw [List.foldl_append, List.foldl_append, ih]
      simp only [List.foldl_cons, List.foldl_nil, Report.eq_add, List.append_assoc]
  rw [convertWith, h, convert, Option.map_map]
  exact congrArg (Option.map · _) (funext hfold)

theorem Workers.InOrder.convertWith_eq {w : Workers} (h : w.InOrder) (units : List SourceUnit)
    (config : Config) : convertWith w units config = convert units config := by
  rw [Batch.convertWith_eq h.collect_eq, Workers.report, h.failure?_eq]
  cases convert units config <;> rfl

/-- There is a report where no file panics, and in it the files do not disturb each other. Under each name
there is the document that the last file of the name gives alone, the names are those of the files in order,
and each failure is reported once in the order of the files. Files of different names may be given in any
order: the text is the same, and so are the failures apart from their order. -/
theorem convertWith_isolates {w : Workers} (hw : w.InOrder) (units : List SourceUnit)
    (config : Config) :
    (convertWith w units config = none ↔ ∃ u ∈ units, u.Panics config) ∧
    (∀ u : SourceUnit, u.convert config = none ↔ u.Panics config) ∧
    ∀ r, convertWith w units config = some r →
      (∀ name, r.data.get? name = (units.filter (·.name = name)).getLast?.bind fun u =>
        (u.convert config).map (·.document)) ∧
      r.data.names.Pairwise (· < ·) ∧
      (∀ name, name ∈ r.data.names ↔ ∃ u ∈ units, u.name = name) ∧
      r.errors = (units.filterMap fun u =>
        ((u.convert config).bind (·.error)).map fun e => ⟨u.name, e⟩) ∧
      ∀ units', units'.Perm units → (units.map (·.name)).Nodup →
        ∃ r', convertWith w units' config = some r' ∧ r'.data.text = r.data.text ∧
          r'.errors.Perm r.errors := by
  simp only [hw.convertWith_eq]
  refine ⟨convert_eq_none_iff, fun u => SourceUnit.convert_eq_none_iff, fun r hr =>
    ⟨get?_convert hr, (ordered_convert hr).names, fun _ => mem_names_convert hr, errors_convert hr,
      fun units' hperm hnames => ?_⟩⟩
  obtain ⟨r', hr'⟩ := exists_convert_of_perm hperm hr
  refine ⟨r', hr', ?_, ?_⟩
  · rw [data_convert_perm hperm hnames hr' hr]
  · rw [errors_convert hr', errors_convert hr]
    exact hperm.filterMap _

/-- One worker, who takes the files in order. -/
def soleWorker : Workers := ⟨fun _ => none, fun f units => units.mapM f⟩

theorem soleWorker_inOrder : soleWorker.InOrder := ⟨fun _ => rfl, fun _ _ => rfl⟩

/-- Three files in strict mode: one did not parse, and the source of one shows another keyword. -/
def mixedUnits : List SourceUnit :=
  let file : Go.File := ⟨0, ⟨8, "p", none⟩, [], []⟩
  [⟨"unread.go", "", .error "expected 'package', found 'EOF'", .empty⟩,
    ⟨"good.go", "package p\n", .ok file, .empty⟩, ⟨"other.go", "// one p\n", .ok file, .empty⟩]

theorem convertWith_isolates_mixedUnits :
    soleWorker.InOrder ∧ mixedUnits.reverse.Perm mixedUnits ∧ (mixedUnits.map (·.name)).Nodup ∧
      ∃ r r', convertWith soleWorker mixedUnits .empty = some r ∧ r.errors.length = 2 ∧
        convertWith soleWorker mixedUnits.reverse .empty = some r' ∧
        r'.data.text = r.data.text ∧ r'.errors.Perm r.errors := by
  have hperm : mixedUnits.reverse.Perm mixedUnits := List.reverse_perm mixedUnits
  have hnames : (mixedUnits.map (·.name)).Nodup := by decide
  have hrun : (convertWith soleWorker mixedUnits .empty).any (·.errors.length = 2) = true := by
    decide +kernel
  obtain ⟨r, hr, hlength⟩ := Option.any_eq_true _ _ |>.mp hrun
  obtain ⟨-, -, hreport⟩ := convertWith_isolates soleWorker_inOrder mixedUnits .empty
  obtain ⟨-, -, -, -, horder⟩ := hreport r hr
  obtain ⟨r', hr', htext, herrors⟩ := horder _ hperm hnames
  exact ⟨soleWorker_inOrder, hperm, hnames, r, r', hr, of_decide_eq_true hlength, hr', htext, herrors⟩

/-- A file that is converted as it should be, and one with a comment that is not closed. -/
def strayUnits : List SourceUnit :=
  [⟨"good.go", "package p\n", .ok ⟨0, ⟨8, "p", none⟩, [], []⟩, .empty⟩,
    ⟨"stray.go", "package p\n/*€", .ok (remarkFile "/*€"), .empty⟩]

/-- A batch has no report because of the comment of one file, though the other file has a document. -/
theorem convertWith_strayUnits :
    soleWorker.InOrder ∧ convertWith soleWorker strayUnits .empty = none ∧
      ∃ u ∈ strayUnits, ∃ o, u.convert .empty = some o ∧ o.error = none := by
  have hlost : convertWith soleWorker strayUnits .empty = none := by decide +kernel
  have hgood : (strayUnits.any fun u => (u.convert .empty).any (·.error = none)) = true := by
    decide +kernel
  obtain ⟨u, hu, hany⟩ := List.any_eq_true.mp hgood
  obtain ⟨o, ho, herror⟩ := Option.any_eq_true _ _ |>.mp hany
  exact ⟨soleWorker_inOrder, hlost, u, hu, o, ho, of_decide_eq_true herror⟩

end Batch

end LosslessGo
