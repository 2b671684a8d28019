import LosslessGo.Config.Sections
import LosslessGo.Proofs.Config.Basic
import LosslessGo.Proofs.Toml.Lines

/-!
# Configurations are read back

What is relied on of a library: that it writes a configuration as the plain text of its sections
(`TomlLibrary.Prints`), and that it reads every text of sections as the settings that are in them
(`TomlLibrary.Reads`).

* `shows_sections`, `distinct_sections`, `givenBy_sections`: the text of a configuration is one of sections,
  and its settings are in them.
* `ofToml_toToml`: so a configuration that is admitted is written and read back.
* `TomlLibrary.builtin_prints`, `TomlLibrary.builtin_reads`: the library of this project is such a one.
-/

namespace LosslessGo

open Toml (Distinct IsBareKey IsPlain Scalar Shows plainQuote rootOf sectionsText valueIn?)

variable {c : Config} {α : Type} {key : String} {scalar : α → Scalar} {o : Option α}
  {ss : List Toml.Section}

namespace Config

/-- Indent and number of workers can be written: the indent as it is in quotes, the number as an
integer. -/
structure Writable (c : Config) : Prop where
  indent : ∀ s, c.indent = some s → ∀ x ∈ s.toList, IsPlain x
  threads : ∀ n, c.threads = some n → Toml.fits n = true

/-- The settings are the values of their keys, and open where there is no such key. -/
structure GivenBy (ss : List Toml.Section) (c : Config) : Prop where
  strict : valueIn? ss "mapper" "strict" = c.strict.map .bool
  describe : valueIn? ss "mapper" "identifier_info" = c.describe.map .bool
  indent : valueIn? ss "output" "indent" = c.indent.map .str
  threads : valueIn? ss "pipeline" "threads" = c.threads.map .nat

end Config

namespace TomlLibrary

/-- A configuration that can be written has the text of its three sections, with a line for each setting
that is not open: truth values as words, numbers in decimal digits, strings in double quotes with tabs as
`\t`. -/
def Prints (toml : TomlLibrary) : Prop :=
  ∀ c : Config, c.Writable → toml.write c = .ok (sectionsText plainQuote c.sections)

/-- Every text of sections is read, however their values are spelled. The settings are those of their
sections and keys, and other sections and keys are passed over. -/
def Reads (toml : TomlLibrary) : Prop :=
  ∀ text ss c, Shows text ss → Distinct ss → Config.GivenBy ss c → toml.read text = .ok c

end TomlLibrary

namespace Config

/-! ## Sections of a configuration -/

theorem mem_pairOf {p : String × Scalar} : p ∈ pairOf key scalar o ↔ ∃ a, o = some a ∧ p = (key, scalar a) := by
  cases o <;> simp [pairOf]

theorem lookup_pairOf (key k : String) (scalar : α → Scalar) (o : Option α) :
    (pairOf key scalar o).lookup k = if k = key then o.map scalar else none := by
  cases o with
  | none => simp [pairOf]
  | some a => exact Entries.lookup_cons k key (scalar a) []

theorem keys_pairOf_sublist (key : String) (scalar : α → Scalar) (o : Option α) :
    ((pairOf key scalar o).map (·.1)).Sublist [key] := by
  cases o with
  | none => exact List.nil_sublist _
  | some a => exact .refl _

/-- A pair can be written if its key needs no quotes and its value can be written. -/
theorem forall_pairOf (hkey : IsBareKey key) (h : ∀ a, o = some a → (scalar a).Writable) :
    ∀ p ∈ pairOf key scalar o, IsBareKey p.1 ∧ p.2.Writable := by
  intro p hp
  obtain ⟨a, ha, rfl⟩ := mem_pairOf.mp hp
  exact ⟨hkey, h a ha⟩

theorem Writable.forall_sections (h : c.Writable) :
    ∀ s ∈ c.sections, ∀ p ∈ s.pairs, IsBareKey p.1 ∧ p.2.Writable := by
  have hstrict : ∀ p ∈ pairOf "strict" .bool c.strict, IsBareKey p.1 ∧ p.2.Writable :=
    forall_pairOf ⟨by decide, by decide⟩ fun _ _ => trivial
  have hdescribe : ∀ p ∈ pairOf "identifier_info" .bool c.describe, IsBareKey p.1 ∧ p.2.Writable :=
    forall_pairOf ⟨by decide, by decide⟩ fun _ _ => trivial
  have hindent : ∀ p ∈ pairOf "indent" .str c.indent, IsBareKey p.1 ∧ p.2.Writable :=
    forall_pairOf ⟨by decide, by decide⟩ h.indent
  have hthreads : ∀ p ∈ pairOf "threads" .nat c.threads, IsBareKey p.1 ∧ p.2.Writable :=
    forall_pairOf ⟨by decide, by decide⟩ h.threads
  simp only [sections, List.forall_mem_cons]
  exact ⟨List.forall_mem_append.mpr ⟨hstrict, hdescribe⟩, hindent, hthreads,
    fun _ hs => absurd hs List.not_mem_nil⟩

/-- A configuration that can be written is shown by its text. -/
theorem shows_sections (h : c.Writable) : Shows (sectionsText plainQuote c.sections) c.sections := by
  refine Toml.shows_sectionsText ?_ h.forall_sections
  have hnames : ∀ name ∈ ["mapper", "output", "pipeline"], IsBareKey name := by
    simp only [List.forall_mem_cons]
    exact ⟨⟨by decide, by decide⟩, ⟨by decide, by decide⟩, ⟨by decide, by decide⟩, by simp⟩
  exact fun s hs => hnames s.name (List.mem_map_of_mem (f := (·.name)) hs)

theorem distinct_sections (c : Config) : Distinct c.sections where
  names := by
    show ["mapper", "output", "pipeline"].Nodup
    decide
  keys := by
    have hmapper := (keys_pairOf_sublist "strict" Scalar.bool c.strict).append
      (keys_pairOf_sublist "identifier_info" Scalar.bool c.describe)
    rw [← List.map_append] at hmapper
    simp only [sections, List.forall_mem_cons]
    refine ⟨hmapper.nodup (by decide), ?_, ?_, fun _ hs => absurd hs List.not_mem_nil⟩
    · exact (keys_pairOf_sublist _ _ _).nodup (List.pairwise_singleton _ _)
    · exact (keys_pairOf_sublist _ _ _).nodup (List.pairwise_singleton _ _)

/-- Each setting is in its section. -/
theorem givenBy_sections (c : Config) : GivenBy c.sections c := by
  constructor <;> simp [valueIn?, sections, List.lookup_append, lookup_pairOf]

/-! ## Writing and reading -/

theorem Admitted.writable (h : c.Admitted) : c.Writable where
  indent s hs x hx := by
    rcases h.indent s hs x hx with rfl | rfl
    · exact ⟨rfl, by decide, by decide⟩
    · exact ⟨rfl, by decide, by decide⟩
  threads n hn := by
    have hle := h.threads n hn
    simp only [Toml.fits, Bool.and_eq_true, decide_eq_true_eq]
    omega

/-- A configuration that is admitted is written, and read back as it is: with the same values, and with
the same settings open. -/
theorem ofToml_toToml {toml : TomlLibrary} (hprints : toml.Prints) (hreads : toml.Reads)
    (h : c.validate = .ok ()) :
    ∃ text, c.toToml toml = .ok text ∧ ofToml toml text = .ok c := by
  have hwritable := (validate_eq_ok_iff.mp h).writable
  have hwrite := hprints c hwritable
  have hread := hreads _ _ c (shows_sections hwritable) (distinct_sections c) (givenBy_sections c)
  refine ⟨sectionsText plainQuote c.sections, ?_, ?_⟩
  · rw [toToml, hwrite]
    rfl
  · rw [ofToml, parse, hread]
    show (c.validate >>= fun _ => _) = _
    rw [h]
    rfl

/-! ## The library of this project -/

/-- A setting has the value that its scalar holds. -/
theorem setting?_map (type? : Toml.Value → Option α) (scalar : α → Scalar)
    (h : ∀ a, type? (scalar a).toValue = some a) (o : Option α) :
    setting? type? (o.map (Scalar.toValue ∘ scalar)) = some o := by
  cases o with
  | none => rfl
  | some a => simp [setting?, h a]

/-- A section has the values of its keys, and none if it is absent. -/
theorem exists_section? (ss : List Toml.Section) (name : String) :
    ∃ s, section? (rootOf ss) name = some s ∧ ∀ key position,
      s.find? key position = (valueIn? ss name key).map Scalar.toValue := by
  unfold section? valueIn?
  rw [Toml.find?_rootOf]
  cases ss.find? (·.name = name) with
  | none => exact ⟨.listed [], rfl, fun _ _ => rfl⟩
  | some s => exact ⟨.named s.table, rfl, fun key _ => Toml.find?_table s key⟩

/-- The settings that sections give are found in their table. -/
theorem ofTable?_rootOf (h : GivenBy ss c) : ofTable? (rootOf ss) = some c := by
  obtain ⟨mapper, hmapper, hmapperValue⟩ := exists_section? ss "mapper"
  obtain ⟨output, houtput, houtputValue⟩ := exists_section? ss "output"
  obtain ⟨pipeline, hpipeline, hpipelineValue⟩ := exists_section? ss "pipeline"
  have hbool := setting?_map bool? .bool fun _ => rfl
  have hstr := setting?_map str? .str fun _ => rfl
  have hnat := setting?_map nat? .nat fun n => by simp [nat?, Scalar.toValue]
  simp [ofTable?, hmapper, houtput, hpipeline, hmapperValue, houtputValue, hpipelineValue, h.strict,
    h.describe, h.indent, h.threads, hbool, hstr, hnat]

end Config

namespace TomlLibrary

open Config

/-- Strings that can be written are written in double quotes. -/
theorem text_quote {a : Scalar} (h : a.Writable) : a.text Toml.quote = a.text plainQuote := by
  cases a with
  | str s => exact Toml.quote_eq_plainQuote h
  | _ => rfl

theorem builtin_prints : builtin.Prints := by
  intro c h
  have htext : sectionsText Toml.quote c.sections = sectionsText plainQuote c.sections := by
    refine congrArg ("\n".intercalate ·) (List.map_congr_left fun s hs => ?_)
    refine congrArg (Toml.Section.headed s.name) (List.map_congr_left fun p hp => ?_)
    rw [text_quote (h.forall_sections s hs p hp).2]
  have hfits : c.threads.all (fun n : Nat => Toml.fits n) = true := by
    rw [Option.all_eq_true]
    exact h.threads
  simp only [builtin, hfits, if_true, htext]

theorem builtin_reads : builtin.Reads := by
  intro text ss c h hdistinct hgiven
  have hread : (Toml.parse? text).bind ofTable? = some c := by
    rw [Toml.parse?_of_shows h hdistinct, Option.bind_some, ofTable?_rootOf hgiven]
  simp only [builtin, hread]

end TomlLibrary

namespace Config

example : empty.toToml .builtin = .ok "[mapper]\n\n[output]\n\n[pipeline]\n" := by decide

/-- An indent of tabs and blanks, and as many workers as are admitted. -/
def tabbedConfig : Config := ⟨some false, none, some "\t  \t", some 1024⟩

theorem ofToml_toToml_tabbedConfig :
    TomlLibrary.builtin.Prints ∧ TomlLibrary.builtin.Reads ∧ tabbedConfig.validate = .ok () ∧
      tabbedConfig.toToml .builtin = .ok ("[mapper]\nstrict = false\n\n" ++
        "[output]\nindent = \"\\t  \\t\"\n\n[pipeline]\nthreads = 1024\n") ∧
      ∃ text, tabbedConfig.toToml .builtin = .ok text ∧
        ofToml .builtin text = .ok tabbedConfig := by
  have hvalid : tabbedConfig.validate = .ok () := by decide
  exact ⟨TomlLibrary.builtin_prints, TomlLibrary.builtin_reads, hvalid, by decide,
    ofToml_toToml TomlLibrary.builtin_prints TomlLibrary.builtin_reads hvalid⟩

end Config

end LosslessGo
