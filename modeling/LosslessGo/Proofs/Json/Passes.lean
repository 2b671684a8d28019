import LosslessGo.Proofs.Json.Read

/-!
# Texts that are read

What the reader makes of texts that are put together from pieces (`Passes`). No piece holds one of the
characters that have a meaning in markup.

* `Passes.append`: a text from two pieces.
* `unescape_flatMap`: escaped characters are read back.
* `passes_quote`, `passes_name`: a string in quotes, as a value and as a name.
-/

namespace LosslessGo.Json

/-- The characters that have a meaning in markup or end a line of script. -/
def markup : List Char := ['<', '>', '&', '\u2028', '\u2029']

/-- A text without characters of markup. -/
def IsInert (text : String) : Prop := ∀ c ∈ text.toList, c ∉ markup

/-- A text of blanks. -/
def IsBlank (text : String) : Prop := ∀ c ∈ text.toList, isBlank c = true

theorem IsInert.append {a b : String} (ha : IsInert a) (hb : IsInert b) : IsInert (a ++ b) := by
  intro c hc
  rw [String.toList_append, List.mem_append] at hc
  exact hc.elim (ha c) (hb c)

theorem IsBlank.append {a b : String} (ha : IsBlank a) (hb : IsBlank b) : IsBlank (a ++ b) := by
  intro c hc
  rw [String.toList_append, List.mem_append] at hc
  exact hc.elim (ha c) (hb c)

/-- A test of each character of a fixed text. -/
theorem forall_of_all {cs : List Char} {p : Char → Prop} [DecidablePred p]
    (h : cs.all fun c => p c) : ∀ c ∈ cs, p c := by
  simpa using h

theorem isBlank_line : IsBlank "\n" := by simp [IsBlank, isBlank]

theorem notMem_markup_of_blank {c : Char} (hc : isBlank c = true) : c ∉ markup := by
  simp only [isBlank, Bool.or_eq_true, beq_iff_eq] at hc
  rcases hc with ((rfl | rfl) | rfl) | rfl <;> decide

theorem notMem_markup_of_numeric {c : Char} (hc : isNumeric c = true) : c ∉ markup := by
  intro hmem
  simp only [markup, List.mem_cons, List.not_mem_nil, or_false] at hmem
  rcases hmem with rfl | rfl | rfl | rfl | rfl <;> revert hc <;> decide

/-- The reader passes over a text from one state to the other. The text holds no markup. -/
structure Passes (s : State) (text : String) (s' : State) : Prop where
  run_eq : text.toList.foldlM State.step s = some s'
  inert : IsInert text

namespace Passes

variable {s s' s'' : State} {a b : String} {frames : List Frame}

/-- A piece of fixed text. -/
theorem fixed (h : a.toList.foldlM State.step s = some s')
    (hinert : a.toList.all fun c => c ∉ markup) : Passes s a s' :=
  ⟨h, forall_of_all hinert⟩

theorem append (ha : Passes s a s') (hb : Passes s' b s'') : Passes s (a ++ b) s'' := by
  refine ⟨?_, ha.inert.append hb.inert⟩
  rw [String.toList_append, List.foldlM_append, ha.run_eq]
  exact hb.run_eq

/-- Blanks are skipped before and behind a value, and around a name. -/
theorem blank (hb : IsBlank b) (hs : ∀ c, isBlank c = true → s.step c = some s) : Passes s b s := by
  refine ⟨?_, fun c hc => notMem_markup_of_blank (hb c hc)⟩
  have hrun : ∀ cs : List Char, (∀ c ∈ cs, isBlank c = true) → cs.foldlM State.step s = some s := by
    intro cs hcs
    induction cs with
    | nil => rfl
    | cons c cs ih =>
      rw [List.foldlM_cons, hs c (hcs c List.mem_cons_self)]
      exact ih fun c' hc' => hcs c' (List.mem_cons_of_mem _ hc')
  exact hrun b.toList hb

theorem value_blank (hb : IsBlank b) : Passes (.value frames) b (.value frames) :=
  .blank hb fun _ hc => if_pos hc

theorem after_blank {v : Value} (hb : IsBlank b) : Passes (.after v frames) b (.after v frames) :=
  .blank hb fun _ hc => if_pos hc

theorem member_blank {members : List (String × Value)} (hb : IsBlank b) :
    Passes (.member members frames) b (.member members frames) :=
  .blank hb fun _ hc => if_pos hc

end Passes

/-! ## Strings -/

section Quote

theorem hexDigit_mem (n : Nat) : hexDigit n ∈ "0123456789abcdef".toList := by
  rw [hexDigit, List.getD_eq_getElem?_getD]
  cases h : "0123456789abcdef".toList[n]? with
  | none => decide
  | some c => exact List.mem_of_getElem? h

theorem hexValue?_hexDigit : ∀ n < 16, hexValue? (hexDigit n) = some n := by decide

theorem toList_hex4 (n : Nat) : (hex4 n).toList =
    [hexDigit (n / 4096 % 16), hexDigit (n / 256 % 16), hexDigit (n / 16 % 16),
      hexDigit (n % 16)] :=
  String.toList_ofList

/-- Four digits are read back. -/
theorem unit?_hexDigit {n : Nat} (hn : n < 65536) :
    unit? (hexDigit (n / 4096 % 16)) (hexDigit (n / 256 % 16)) (hexDigit (n / 16 % 16))
      (hexDigit (n % 16)) = some n := by
  have hdigit (m : Nat) : hexValue? (hexDigit (m % 16)) = some (m % 16) :=
    hexValue?_hexDigit _ (Nat.mod_lt _ (by decide))
  simp only [unit?, hdigit, Option.bind_eq_bind, Option.bind_some, pure, Option.some.injEq]
  omega

/-- Characters written by their number are neither large nor surrogates. -/
theorem toNat_of_isNumbered {c : Char} (h : isNumbered c = true) : c.toNat < 0xd800 := by
  simp only [isNumbered, Bool.or_eq_true, decide_eq_true_eq, beq_iff_eq] at h
  rcases h with ((((h | rfl) | rfl) | rfl) | h) | h
  · have hlt : c.val.toNat < 0x20 := h
    exact Nat.lt_trans hlt (by decide)
  · decide
  · decide
  · decide
  · rw [Char.toNat, h]; decide
  · rw [Char.toNat, h]; decide

/-- A character that stands for itself. -/
theorem escape_eq_toString {c : Char} (hq : c ≠ '"') (hb : c ≠ '\\') (hc : isNumbered c = false) :
    escape c = c.toString := by
  have hcontrol {c' : Char} (h' : isNumbered c' = true) : c ≠ c' := by
    rintro rfl
    rw [hc] at h'
    cases h'
  rw [escape, if_neg hq, if_neg hb, if_neg (hcontrol rfl), if_neg (hcontrol rfl),
    if_neg (hcontrol rfl), if_neg (by simp [hc])]

/-- How a character is written. -/
theorem escape_cases (c : Char) :
    (∃ letter, (escape c).toList = ['\\', letter] ∧ letter ∈ ['"', '\\', 'n', 'r', 't'] ∧
      short? letter = some c) ∨
    ((escape c).toList = '\\' :: 'u' :: (hex4 c.toNat).toList ∧ c.toNat < 0xd800) ∨
    ((escape c).toList = [c] ∧ c ≠ '"' ∧ c ≠ '\\' ∧ isNumbered c = false) := by
  by_cases hq : c = '"'
  · exact .inl ⟨'"', by simp [escape, hq], by simp, by simp [short?, hq]⟩
  by_cases hb : c = '\\'
  · exact .inl ⟨'\\', by simp [escape, hb], by simp, by simp [short?, hb]⟩
  by_cases hn : c = '\n'
  · exact .inl ⟨'n', by simp [escape, hn], by simp, by simp [short?, hn]⟩
  by_cases hr : c = '\r'
  · exact .inl ⟨'r', by simp [escape, hr], by simp, by simp [short?, hr]⟩
  by_cases ht : c = '\t'
  · exact .inl ⟨'t', by simp [escape, ht], by simp, by simp [short?, ht]⟩
  cases hc : isNumbered c with
  | true => exact .inr (.inl ⟨by simp [escape, *], toNat_of_isNumbered hc⟩)
  | false =>
    refine .inr (.inr ⟨?_, hq, hb, rfl⟩)
    rw [escape_eq_toString hq hb hc, Char.toString_eq_singleton, String.toList_singleton]

theorem unescape_escape (c : Char) (rest : List Char) :
    unescape ((escape c).toList ++ rest) = (unescape rest).map (c :: ·) := by
  rcases escape_cases c with ⟨letter, heq, hmem, hshort⟩ | ⟨heq, hlt⟩ | ⟨heq, -, hb, hc⟩
  · have hu : letter ≠ 'u' := by
      rintro rfl
      exact absurd hmem (by decide)
    rw [heq, List.cons_append, List.cons_append, List.nil_append, unescape, hshort, Option.bind_some]
    exact fun _ _ _ _ _ h => absurd h hu
  · rw [heq, toList_hex4]
    simp only [List.cons_append, List.nil_append, unescape,
      unit?_hexDigit (Nat.lt_trans hlt (by decide)), if_pos (Or.inl hlt), Char.ofNat_toNat]
  · have hval : ¬ c.val < 0x20 := by
      intro hval
      simp [isNumbered, hval] at hc
    rw [heq, List.singleton_append, unescape, if_neg (by simp [hb, hval])]
    · exact fun _ _ _ _ _ h => absurd h hb
    · exact fun _ _ h => absurd h hb

/-- Escaped characters are read back. -/
theorem unescape_flatMap (cs : List Char) :
    unescape (cs.flatMap fun c => (escape c).toList) = some cs := by
  induction cs with
  | nil => rfl
  | cons c cs ih => rw [List.flatMap_cons, unescape_escape, ih, Option.map_some]

variable {role : Role} {raw : List Char} {frames : List Frame}

/-- In a string, characters other than quotes and backslashes are gathered. -/
theorem run_quoted {cs : List Char} (h : ∀ c ∈ cs, c ≠ '"' ∧ c ≠ '\\') :
    cs.foldlM State.step (.quoted role raw false frames) =
      some (.quoted role (raw ++ cs) false frames) := by
  induction cs generalizing raw with
  | nil => simp
  | cons c cs ih =>
    obtain ⟨hq, hb⟩ := h c List.mem_cons_self
    have hstep : State.step (.quoted role raw false frames) c =
        some (.quoted role (raw ++ [c]) false frames) := by
      simp [State.step, hq, hb]
    rw [List.foldlM_cons, hstep, List.append_cons raw c cs]
    exact ih fun c' hc' => h c' (List.mem_cons_of_mem _ hc')

theorem passes_escape (c : Char) :
    Passes (.quoted role raw false frames) (escape c)
      (.quoted role (raw ++ (escape c).toList) false frames) := by
  have hhex {c' : Char} (hc' : c' ∈ (hex4 c.toNat).toList) : c' ∈ "0123456789abcdef".toList := by
    simp only [toList_hex4, List.mem_cons, List.not_mem_nil, or_false] at hc'
    rcases hc' with rfl | rfl | rfl | rfl <;> exact hexDigit_mem _
  rcases escape_cases c with ⟨letter, heq, hmem, -⟩ | ⟨heq, -⟩ | ⟨heq, hq, hb, hc⟩
  · have hinert : ∀ c' ∈ ['"', '\\', 'n', 'r', 't'], c' ∉ markup :=
      forall_of_all rfl
    refine ⟨by simp [heq, State.step], ?_⟩
    rw [IsInert, heq]
    simpa using ⟨by decide, hinert letter hmem⟩
  · have hinert : ∀ c' ∈ "0123456789abcdef".toList, c' ∉ markup ∧ c' ≠ '"' ∧ c' ≠ '\\' :=
      forall_of_all rfl
    constructor
    · have hdigits : (hex4 c.toNat).toList.foldlM State.step
          (.quoted role (raw ++ ['\\', 'u']) false frames) =
          some (.quoted role (raw ++ ['\\', 'u'] ++ (hex4 c.toNat).toList) false frames) :=
        run_quoted fun c' hc' => (hinert c' (hhex hc')).2
      rw [heq]
      simpa [State.step] using hdigits
    · rw [IsInert, heq]
      simpa using ⟨by decide, by decide, fun c' hc' => (hinert c' (hhex hc')).1⟩
  · constructor
    · rw [heq]
      exact run_quoted (by simp [hq, hb])
    · rw [IsInert, heq, List.forall_mem_singleton]
      intro hmem
      simp only [markup, List.mem_cons, List.not_mem_nil, or_false] at hmem
      rcases hmem with rfl | rfl | rfl | rfl | rfl <;> exact absurd hc (by decide)

/-- A string in quotes. -/
theorem passes_quoted (role : Role) (s : String) :
    Passes (.quoted role [] false frames) (String.join (s.toList.map escape) ++ "\"")
      (role.read s frames) := by
  have hjoin (cs : List Char) (raw : List Char) :
      Passes (.quoted role raw false frames) (String.join (cs.map escape))
        (.quoted role (raw ++ cs.flatMap fun c => (escape c).toList) false frames) := by
    induction cs generalizing raw with
    | nil => simpa using Passes.fixed rfl rfl
    | cons c cs ih =>
      rw [List.map_cons, String.join_cons, List.flatMap_cons, ← List.append_assoc]
      exact (passes_escape c).append (ih _)
  refine (hjoin s.toList []).append (.fixed ?_ rfl)
  simp [State.step, unescape_flatMap, String.ofList_toList]

theorem passes_quote (s : String) : Passes (.value frames) (quote s) (.after (.str s) frames) := by
  rw [quote, String.append_assoc]
  exact (Passes.fixed rfl rfl).append (passes_quoted .value s)

theorem passes_name (s : String) {members : List (String × Value)} :
    Passes (.member members frames) (quote s) (.colon members s frames) := by
  rw [quote, String.append_assoc]
  exact (Passes.fixed rfl rfl).append (passes_quoted (.name members) s)

end Quote

end LosslessGo.Json
