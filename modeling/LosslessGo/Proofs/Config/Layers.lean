import LosslessGo.Config.Layers
import LosslessGo.Config.Sections
import LosslessGo.Proofs.Config.Basic

/-!
# Layers are merged setting by setting

* `Environment.Gives`: the settings that variables give, where values that are none of their type give none.
* `UserGives`, `ProjectGives`: the settings that files give, if they do not make loading fail.
* `Layers.load_eq`: from there on, loading merges the layers and checks the result only.
* `Layers.load_layered`: how loading ends, for all files, variables and overrides, and whatever the library
  reads in the files.
-/

namespace LosslessGo

/-! ## Environment -/

namespace Environment

/-- A text is a numeral of `n`: decimal digits, a plus sign before them or not, of a number of 64 bits. -/
def IsNumeral (s : String) (n : Nat) : Prop :=
  ∃ ds : List Char, (s.toList = ds ∨ s.toList = '+' :: ds) ∧ ds ≠ [] ∧ (∀ c ∈ ds, c.isDigit = true) ∧
    Nat.ofDigitChars 10 ds 0 = n ∧ n < 18446744073709551616

/-- The settings that variables give: truth values and numbers where they are written as such, and the
indent in any case. -/
structure Gives (e : Environment) (c : Config) : Prop where
  strict : ∀ b, c.strict = some b ↔ e.strict = some (toString b)
  describe : ∀ b, c.describe = some b ↔ e.describe = some (toString b)
  indent : c.indent = e.indent
  threads : ∀ n, c.threads = some n ↔ ∃ s, e.threads = some s ∧ IsNumeral s n

variable {s : String} {n : Nat} {b : Bool}

theorem bool?_eq_some_iff : bool? s = some b ↔ s = toString b := by
  have htrue : toString true = "true" := rfl
  have hfalse : toString false = "false" := rfl
  unfold bool?
  split
  · cases b <;> simp_all
  split
  · cases b <;> simp_all
  · cases b <;> simp_all

theorem digits?_eq_some_iff {ds : List Char} : digits? ds = some n ↔
    ds ≠ [] ∧ (∀ c ∈ ds, c.isDigit = true) ∧ Nat.ofDigitChars 10 ds 0 = n := by
  unfold digits?
  split
  · rename_i hbad
    refine ⟨fun h => absurd h (Option.some_ne_none n).symm, fun ⟨hne, hdigits, _⟩ => ?_⟩
    simp [hne, List.all_eq_true.mpr hdigits] at hbad
  · rename_i hgood
    simp only [not_or, List.isEmpty_iff, Bool.not_eq_true, Bool.not_eq_false'] at hgood
    have hdigits := List.all_eq_true.mp hgood.2
    rw [Option.some.injEq]
    exact ⟨fun h => ⟨hgood.1, hdigits, h⟩, fun h => h.2.2⟩

/-- A plus sign before digits is passed over. -/
theorem number?_of_toList {ds : List Char} (hs : s.toList = ds ∨ s.toList = '+' :: ds)
    (hdigits : ∀ c ∈ ds, c.isDigit = true) :
    number? s = (digits? ds).filter (· ≤ maxNumber) := by
  unfold number?
  dsimp only
  rcases hs with hs | hs
  · rw [hs]
    split
    · exact absurd (hdigits _ List.mem_cons_self) (by decide)
    · rfl
  · rw [hs]
    rfl

theorem exists_digits (s : String) :
    ∃ ds, (s.toList = ds ∨ s.toList = '+' :: ds) ∧ number? s = (digits? ds).filter (· ≤ maxNumber) := by
  unfold number?
  dsimp only
  split
  · exact ⟨_, .inr ‹_›, rfl⟩
  · exact ⟨_, .inl rfl, rfl⟩

theorem number?_eq_some_iff : number? s = some n ↔ IsNumeral s n := by
  have hfilter {ds : List Char} : (digits? ds).filter (· ≤ maxNumber) = some n ↔
      (ds ≠ [] ∧ (∀ c ∈ ds, c.isDigit = true) ∧ Nat.ofDigitChars 10 ds 0 = n) ∧ n ≤ maxNumber := by
    rw [Option.filter_eq_some_iff, digits?_eq_some_iff, decide_eq_true_eq]
  constructor
  · intro h
    obtain ⟨ds, hs, heq⟩ := exists_digits s
    obtain ⟨⟨hne, hdigits, hn⟩, hle⟩ := hfilter.mp (heq.symm.trans h)
    exact ⟨ds, hs, hne, hdigits, hn, Nat.lt_succ_of_le hle⟩
  · rintro ⟨ds, hs, hne, hdigits, hn, hlt⟩
    rw [number?_of_toList hs hdigits]
    exact hfilter.mpr ⟨⟨hne, hdigits, hn⟩, Nat.le_of_lt_succ hlt⟩

theorem bind_bool?_eq_some_iff {o : Option String} :
    o.bind bool? = some b ↔ o = some (toString b) := by
  simp [Option.bind_eq_some_iff, bool?_eq_some_iff]

theorem gives_settings (e : Environment) : e.Gives e.settings where
  strict _ := bind_bool?_eq_some_iff
  describe _ := bind_bool?_eq_some_iff
  indent := rfl
  threads _ := by
    rw [settings, Option.bind_eq_some_iff]
    exact exists_congr fun s => and_congr_right fun _ => number?_eq_some_iff

end Environment

/-! ## Files -/

variable {toml : TomlLibrary}

namespace ConfigFile

/-- The file can be read, and is a configuration. -/
def Holds (toml : TomlLibrary) (f : ConfigFile) (c : Config) : Prop :=
  ∃ s, f.content = .text s ∧ toml.read s = .ok c

/-- The file can be read, but is no configuration, for the reason that the library gives. -/
def IsGarbled (toml : TomlLibrary) (f : ConfigFile) (message : String) : Prop :=
  ∃ s, f.content = .text s ∧ toml.read s = .error message

variable {f : ConfigFile} {c : Config} {message : String}

theorem settings_of_holds (h : f.Holds toml c) : f.settings toml = .ok c := by
  obtain ⟨s, hs, hc⟩ := h
  simp [settings, hs, Config.parse, hc, Except.mapError]

theorem settings_of_isGarbled (h : f.IsGarbled toml message) :
    f.settings toml = .error (.parse f.path message) := by
  obtain ⟨s, hs, hmessage⟩ := h
  simp [settings, hs, Config.parse, hmessage, Except.mapError]

theorem settings_of_unreadable {reason : String} (h : f.content = .unreadable reason) :
    f.settings toml = .error (.io f.path reason) := by
  rw [settings, h]

/-- A file that can be read is a configuration or none. -/
theorem exists_holds (h : ∀ message, ¬f.IsGarbled toml message)
    (hread : ∀ reason, f.content ≠ .unreadable reason) : ∃ c, f.Holds toml c := by
  cases hcontent : f.content with
  | unreadable reason => exact absurd hcontent (hread reason)
  | text s =>
    cases hs : toml.read s with
    | error message => exact absurd ⟨s, hcontent, hs⟩ (h message)
    | ok c => exact ⟨c, s, hcontent, hs⟩

end ConfigFile

/-- The settings of the user: none if there is no file or it cannot be read. -/
inductive UserGives (toml : TomlLibrary) : Option ConfigFile → Config → Prop where
  | absent : UserGives toml none .empty
  | unreadable {f : ConfigFile} {reason : String} :
    f.content = .unreadable reason → UserGives toml (some f) .empty
  | holds {f : ConfigFile} {c : Config} : f.Holds toml c → UserGives toml (some f) c

/-- The settings of the project: none if there is no file. -/
inductive ProjectGives (toml : TomlLibrary) : Option ConfigFile → Config → Prop where
  | absent : ProjectGives toml none .empty
  | holds {f : ConfigFile} {c : Config} : f.Holds toml c → ProjectGives toml (some f) c

theorem exists_userGives {user : Option ConfigFile}
    (h : ∀ f, user = some f → ∀ message, ¬f.IsGarbled toml message) :
    ∃ c, UserGives toml user c := by
  cases user with
  | none => exact ⟨.empty, .absent⟩
  | some f =>
    by_cases hread : ∃ reason, f.content = .unreadable reason
    · obtain ⟨reason, hread⟩ := hread
      exact ⟨.empty, .unreadable hread⟩
    · obtain ⟨c, hc⟩ := ConfigFile.exists_holds (h f rfl) (not_exists.mp hread)
      exact ⟨c, .holds hc⟩

theorem exists_projectGives {project : Option ConfigFile}
    (h : ∀ f, project = some f → (∀ message, ¬f.IsGarbled toml message) ∧
      ∀ reason, f.content ≠ .unreadable reason) :
    ∃ c, ProjectGives toml project c := by
  cases project with
  | none => exact ⟨.empty, .absent⟩
  | some f =>
    obtain ⟨c, hc⟩ := ConfigFile.exists_holds (h f rfl).1 (h f rfl).2
    exact ⟨c, .holds hc⟩

namespace Layers

variable {l : Layers} {f : ConfigFile} {u p : Config} {err : ConfigError} {message : String}

theorem userSettings_of_gives (h : UserGives toml l.user u) : l.userSettings toml = .ok u := by
  rw [userSettings]
  generalize l.user = user at h ⊢
  cases h with
  | absent => rfl
  | unreadable hcontent =>
    dsimp only
    rw [hcontent]
  | holds hf =>
    have hsettings := ConfigFile.settings_of_holds hf
    obtain ⟨s, hs, -⟩ := hf
    dsimp only
    rw [hs]
    exact hsettings

theorem projectSettings_of_gives (h : ProjectGives toml l.project p) :
    l.projectSettings toml = .ok p := by
  rw [projectSettings]
  generalize l.project = project at h ⊢
  cases h with
  | absent => rfl
  | holds hf => exact ConfigFile.settings_of_holds hf

theorem userSettings_of_isGarbled (hl : l.user = some f) (h : f.IsGarbled toml message) :
    l.userSettings toml = .error (.parse f.path message) := by
  have hsettings := ConfigFile.settings_of_isGarbled h
  obtain ⟨s, hs, -⟩ := h
  rw [userSettings, hl]
  dsimp only
  rw [hs]
  exact hsettings

theorem projectSettings_of_eq_some (hl : l.project = some f) :
    l.projectSettings toml = f.settings toml := by
  rw [projectSettings, hl]

/-! ## Loading -/

theorem load_of_user_isGarbled (hl : l.user = some f) (h : f.IsGarbled toml message) :
    l.load toml = .error (.parse f.path message) := by
  rw [load, userSettings_of_isGarbled hl h]
  rfl

theorem load_of_project_error (hu : UserGives toml l.user u) (hl : l.project = some f)
    (h : f.settings toml = .error err) : l.load toml = .error err := by
  rw [load, userSettings_of_gives hu, projectSettings_of_eq_some hl, h]
  rfl

/-- The layers are merged one over the other, and only the result is checked. -/
theorem load_eq (hu : UserGives toml l.user u) (hp : ProjectGives toml l.project p) :
    ∃ c, Config.IsMerged [l.overrides, l.environment.settings, p, u] c ∧
      l.load toml = c.validate.map fun _ => c := by
  refine ⟨l.overrides.above (l.environment.settings.above (p.above u)), ?_, ?_⟩
  · exact (((Config.IsMerged.singleton u).above p).above _).above _
  · rw [load, userSettings_of_gives hu, projectSettings_of_gives hp]
    show ((l.overrides.above (l.environment.settings.above (p.above u))).validate >>= fun _ => _) = _
    cases (l.overrides.above (l.environment.settings.above (p.above u))).validate <;> rfl

/-- Loading fails on a file of the user that can be read but is no configuration; one that cannot be read
is as if it were absent. Then it fails on a file of the project that cannot be read or is no configuration.
Otherwise every setting is taken by itself from the highest layer that gives it, and the result is loaded
just if it is admitted, whatever the layers hold that are overridden. Nothing is asked of the library. -/
theorem load_layered (toml : TomlLibrary) (l : Layers) :
    (∀ f message, l.user = some f → f.IsGarbled toml message →
      l.load toml = .error (.parse f.path message)) ∧
    (∀ f reason, l.user = some f → f.content = .unreadable reason →
      l.load toml = { l with user := none }.load toml) ∧
    ((∀ f, l.user = some f → ∀ message, ¬f.IsGarbled toml message) →
      (∀ f reason, l.project = some f → f.content = .unreadable reason →
        l.load toml = .error (.io f.path reason)) ∧
      (∀ f message, l.project = some f → f.IsGarbled toml message →
        l.load toml = .error (.parse f.path message)) ∧
      ((∀ f, l.project = some f → (∀ message, ¬f.IsGarbled toml message) ∧
          ∀ reason, f.content ≠ .unreadable reason) →
        ∃ u p e c, UserGives toml l.user u ∧ ProjectGives toml l.project p ∧ l.environment.Gives e ∧
          Config.IsMerged [l.overrides, e, p, u] c ∧
          (∀ c', l.load toml = .ok c' ↔ c' = c ∧ c.validate = .ok ()) ∧
          (∀ err, l.load toml = .error err ↔ c.validate = .error err) ∧
          (c.validate = .ok () ↔ c.Admitted))) := by
  refine ⟨fun f message hf h => load_of_user_isGarbled hf h, fun f reason hf h => ?_, fun huser => ?_⟩
  · have hgives : UserGives toml l.user .empty := by
      rw [hf]
      exact .unreadable h
    have hsettings : l.userSettings toml = { l with user := none }.userSettings toml := by
      rw [userSettings_of_gives hgives, userSettings_of_gives .absent]
    rw [load, hsettings]
    rfl
  obtain ⟨u, hu⟩ := exists_userGives huser
  refine ⟨fun f reason hf h => ?_, fun f message hf h => ?_, fun hproject => ?_⟩
  · exact load_of_project_error hu hf (ConfigFile.settings_of_unreadable h)
  · exact load_of_project_error hu hf (ConfigFile.settings_of_isGarbled h)
  · obtain ⟨p, hp⟩ := exists_projectGives hproject
    obtain ⟨c, hc, hload⟩ := load_eq hu hp
    refine ⟨u, p, _, c, hu, hp, l.environment.gives_settings, hc, fun c' => ?_, fun err => ?_,
      Config.validate_eq_ok_iff⟩
    · rw [hload]
      cases c.validate <;> simp [Except.map, eq_comm]
    · rw [hload]
      cases c.validate <;> simp [Except.map]

/-- Layers of which each gives something. The files hold an indent and a number of workers that are not
admitted, but are overridden. -/
def mixedLayers : Layers where
  user := some ⟨"user.toml", .text "[pipeline]\nthreads = 5000\n"⟩
  project := some ⟨"project.toml", .text "[mapper]\nstrict = true\n\n[output]\nindent = \"--\"\n"⟩
  environment := ⟨some "yes", some "false", none, some "+8"⟩
  overrides := ⟨none, none, some "\t", none⟩

theorem load_layered_mixedLayers :
    (∀ f, mixedLayers.user = some f → ∀ message, ¬f.IsGarbled .builtin message) ∧
      (∀ f, mixedLayers.project = some f → (∀ message, ¬f.IsGarbled .builtin message) ∧
        ∀ reason, f.content ≠ .unreadable reason) ∧
      mixedLayers.load .builtin = .ok ⟨some true, some false, some "\t", some 8⟩ ∧
      ∃ u p e c, UserGives .builtin mixedLayers.user u ∧ ProjectGives .builtin mixedLayers.project p ∧
        mixedLayers.environment.Gives e ∧ Config.IsMerged [mixedLayers.overrides, e, p, u] c ∧
        (∀ c', mixedLayers.load .builtin = .ok c' ↔ c' = c ∧ c.validate = .ok ()) ∧
        (∀ err, mixedLayers.load .builtin = .error err ↔ c.validate = .error err) ∧
        (c.validate = .ok () ↔ c.Admitted) := by
  have huserText : (TomlLibrary.builtin.read "[pipeline]\nthreads = 5000\n").isOk = true := by
    decide +kernel
  have hprojectText : (TomlLibrary.builtin.read
      "[mapper]\nstrict = true\n\n[output]\nindent = \"--\"\n").isOk = true := by
    decide +kernel
  have huser : ∀ f, mixedLayers.user = some f → ∀ message, ¬f.IsGarbled .builtin message := by
    rintro f ⟨⟩ message ⟨s, ⟨⟩, h⟩
    rw [h] at huserText
    cases huserText
  have hproject : ∀ f, mixedLayers.project = some f →
      (∀ message, ¬f.IsGarbled .builtin message) ∧ ∀ reason, f.content ≠ .unreadable reason := by
    rintro f ⟨⟩
    refine ⟨?_, fun reason h => nomatch h⟩
    rintro message ⟨s, ⟨⟩, h⟩
    rw [h] at hprojectText
    cases hprojectText
  exact ⟨huser, hproject, by decide +kernel,
    ((load_layered .builtin mixedLayers).2.2 huser).2.2 hproject⟩

end Layers

end LosslessGo
