import Mathlib.Data.List.Forall2
import LosslessGo.Proofs.Json.Passes

/-!
# Values that are read

What the reader makes of the texts of numbers, of lists and of values (`Reads`).

* `Reads.read_eq`: the value of a whole text.
* `passes_items`, `passes_members`: lists with separators between the items.
* `reads_text`: the text of a value is read back as the value.
-/

namespace LosslessGo.Json

/-! ## Values and their texts -/

/-- The value `v` has been read. The end of a numeral is known only at the character behind it. -/
inductive State.Ends (v : Value) (frames : List Frame) : State → Prop where
  | after : Ends v frames (.after v frames)
  | number {raw : List Char} {n : Int} (hv : v = .int n) (hraw : integer? raw = some n) :
    Ends v frames (.number raw frames)

theorem State.Ends.passes {v : Value} {frames : List Frame} {s s' : State} {text : String}
    (h : s.Ends v frames) (htext : Passes (.after v frames) text s')
    (hhead : text.toList.head?.any fun c => !isNumeric c) : Passes s text s' := by
  cases h with
  | after => exact htext
  | number hv hraw =>
    refine ⟨?_, htext.inert⟩
    rw [← htext.run_eq]
    cases hcs : text.toList with
    | nil => simp [hcs] at hhead
    | cons c cs =>
      have hc : isNumeric c = false := by simpa [hcs] using hhead
      simp [State.step, hc, hraw, hv]

theorem State.Ends.blank {v : Value} {frames : List Frame} {s : State} {b : String}
    (h : s.Ends v frames) (hb : IsBlank b) : ∃ s', Passes s b s' ∧ s'.Ends v frames := by
  by_cases hne : b = ""
  · subst hne
    exact ⟨s, .fixed rfl rfl, h⟩
  refine ⟨_, h.passes (.after_blank hb) ?_, .after⟩
  cases hcs : b.toList with
  | nil => exact absurd (String.toList_eq_nil_iff.mp hcs) hne
  | cons c cs =>
    have hc := hb c (by simp [hcs])
    simp only [isBlank, Bool.or_eq_true, beq_iff_eq] at hc
    rcases hc with ((rfl | rfl) | rfl) | rfl <;> rfl

/-- A text from which the reader reads the value `v`. -/
def Reads (text : String) (v : Value) : Prop :=
  ∀ frames, ∃ s, Passes (.value frames) text s ∧ s.Ends v frames

theorem Reads.of_passes {text : String} {v : Value}
    (h : ∀ frames, Passes (.value frames) text (.after v frames)) : Reads text v :=
  fun frames => ⟨_, h frames, .after⟩

/-- What is read is the value of the text. -/
theorem Reads.read_eq {text : String} {v : Value} (h : Reads text v) :
    read text = some v ∧ IsInert text := by
  obtain ⟨s, hs, hend⟩ := h []
  refine ⟨?_, hs.inert⟩
  rw [read, hs.run_eq, Option.bind_some]
  cases hend with
  | after => rfl
  | number hv hraw => simp [State.result?, hv, hraw]

theorem Reads.blank {b text : String} {v : Value} (hb : IsBlank b) (h : Reads text v) :
    Reads (b ++ text) v := fun frames => by
  obtain ⟨s, hs, hend⟩ := h frames
  exact ⟨s, (Passes.value_blank hb).append hs, hend⟩

/-- Texts of values, one by one. -/
theorem forall₂_reads_map {α : Type} {text : α → String} {value : α → Value} {xs : List α}
    (h : ∀ x ∈ xs, Reads (text x) (value x)) :
    List.Forall₂ Reads (xs.map text) (xs.map value) := by
  rw [List.forall₂_map_left_iff, List.forall₂_map_right_iff]
  exact List.forall₂_same.mpr h

/-! ## Numbers -/

section Numbers

/-- No numeral of more than one digit starts with a zero. -/
theorem head?_toDigits {n : Nat} (h : (Nat.toDigits 10 n).head? = some '0') :
    Nat.toDigits 10 n = ['0'] := by
  induction n using Nat.strongRecOn with
  | ind n ih =>
    by_cases hlt : n < 10
    · rw [Nat.toDigits_of_lt_base hlt] at h ⊢
      simpa using h
    · have hle : 10 ≤ n := Nat.le_of_not_lt hlt
      rw [Nat.toDigits_of_base_le (by decide) hle,
        List.head?_append_of_ne_nil _ Nat.toDigits_ne_nil] at h
      have hzero : Nat.ofDigitChars 10 (Nat.toDigits 10 (n / 10)) 0 = 0 := by
        rw [ih (n / 10) (by omega) h]
        rfl
      rw [Nat.ofDigitChars_ten_toDigits] at hzero
      omega

theorem natural?_toDigits (n : Nat) : natural? (Nat.toDigits 10 n) = some n := by
  rw [natural?, if_pos, Nat.ofDigitChars_ten_toDigits]
  refine ⟨Nat.toDigits_ne_nil, List.all_eq_true.mpr fun c hc => ?_, head?_toDigits⟩
  exact Nat.isDigit_of_mem_toDigits (by decide) (by decide) hc

theorem isNumeric_of_mem_toDigits {n : Nat} {c : Char} (hc : c ∈ Nat.toDigits 10 n) :
    isNumeric c = true := by
  rw [isNumeric, Nat.isDigit_of_mem_toDigits (by decide) (by decide) hc, Bool.true_or]

/-- A numeral starts a value. -/
theorem step_numeric {frames : List Frame} {c : Char} (hc : isNumeric c = true) :
    State.step (.value frames) c = some (.number [c] frames) := by
  have hother (c' : Char) (h' : isNumeric c' = false) : c ≠ c' := by
    rintro rfl
    rw [hc] at h'
    cases h'
  have hblank : ¬isBlank c = true := by
    simp [isBlank, hother ' ' rfl, hother '\t' rfl, hother '\n' rfl, hother '\r' rfl]
  have hstart : State.step (.value frames) c = State.start frames c :=
    (if_neg hblank).trans (if_neg (hother ']' rfl))
  rw [hstart, State.start, if_pos hc]
  all_goals
    rintro rfl
    exact absurd hc (by decide)

/-- Numerals are gathered. -/
theorem run_numeral {frames : List Frame} {cs : List Char} (hne : cs ≠ [])
    (h : ∀ c ∈ cs, isNumeric c = true) :
    cs.foldlM State.step (.value frames) = some (.number cs frames) := by
  have hrun (cs raw : List Char) (h : ∀ c ∈ cs, isNumeric c = true) :
      cs.foldlM State.step (.number raw frames) = some (.number (raw ++ cs) frames) := by
    induction cs generalizing raw with
    | nil => simp
    | cons c cs ih =>
      have hstep : State.step (.number raw frames) c = some (.number (raw ++ [c]) frames) :=
        if_pos (h c List.mem_cons_self)
      rw [List.foldlM_cons, hstep, List.append_cons raw c cs]
      exact ih _ fun c' hc' => h c' (List.mem_cons_of_mem _ hc')
  cases cs with
  | nil => exact absurd rfl hne
  | cons c cs =>
    rw [List.foldlM_cons, step_numeric (h c List.mem_cons_self)]
    exact hrun cs [c] fun c' hc' => h c' (List.mem_cons_of_mem _ hc')

theorem reads_int (n : Int) : Reads (toString n) (.int n) := by
  have hreads {text : String} (hne : text.toList ≠ []) (h : ∀ c ∈ text.toList, isNumeric c = true)
      (hn : integer? text.toList = some n) : Reads text (.int n) := fun frames =>
    ⟨_, ⟨run_numeral hne h, fun c hc => notMem_markup_of_numeric (h c hc)⟩, .number rfl hn⟩
  cases n with
  | ofNat m =>
    have hlist : (toString (Int.ofNat m)).toList = Nat.toDigits 10 m := Nat.toList_repr
    refine hreads ?_ ?_ ?_ <;> rw [hlist]
    · exact Nat.toDigits_ne_nil
    · exact fun c => isNumeric_of_mem_toDigits
    · rw [integer?, natural?_toDigits]
      · rfl
      · intro cs hcs
        have hdigit : '-'.isDigit = true :=
          Nat.isDigit_of_mem_toDigits (by decide) (by decide) (hcs ▸ List.mem_cons_self)
        exact absurd hdigit (by decide)
  | negSucc m =>
    have hlist : (toString (Int.negSucc m)).toList = '-' :: Nat.toDigits 10 (m + 1) := by
      show ("-" ++ (m + 1).repr).toList = _
      rw [String.toList_append, Nat.toList_repr]
      rfl
    refine hreads ?_ ?_ ?_ <;> rw [hlist]
    · exact List.cons_ne_nil _ _
    · rw [List.forall_mem_cons]
      exact ⟨rfl, fun c => isNumeric_of_mem_toDigits⟩
    · rw [integer?, natural?_toDigits]
      rfl

end Numbers

/-! ## Lists -/

/-- A comma and blanks. -/
def IsSeparator (sep : String) : Prop := ∃ b, IsBlank b ∧ sep = "," ++ b

theorem isSeparator_comma : IsSeparator "," := ⟨"", by simp [IsBlank], by simp⟩

theorem isSeparator_line : IsSeparator ",\n" := ⟨"\n", isBlank_line, rfl⟩

theorem IsSeparator.head {sep : String} (h : IsSeparator sep) :
    sep.toList.head?.any fun c => !isNumeric c := by
  obtain ⟨b, -, rfl⟩ := h
  simp [isNumeric]

/-- `items` have been read of an array, up to the end of the last one. -/
inductive State.InArray (frames : List Frame) : List Value → State → Prop where
  | opened : InArray frames [] (.value (.array [] :: frames))
  | behind {items : List Value} {v : Value} {s : State} (h : s.Ends v (.array items :: frames)) :
    InArray frames (items ++ [v]) s

/-- `members` have been read of an object, up to the end of the last one. -/
inductive State.InObject (frames : List Frame) : List (String × Value) → State → Prop where
  | opened : InObject frames [] (.member [] frames)
  | behind {members : List (String × Value)} {name : String} {v : Value} {s : State}
    (h : s.Ends v (.object members name :: frames)) : InObject frames (members ++ [(name, v)]) s

/-- A text from which the reader reads a member of an object. -/
def ReadsMember (text : String) (m : String × Value) : Prop :=
  ∀ members frames, ∃ s, Passes (.member members frames) text s ∧ s.Ends m.2 (.object members m.1 :: frames)

section Lists

variable {frames : List Frame} {s : State} {sep : String} {texts : List String}

/-- Items are read one after the other. `between` is the state in which an item comes next, and `Read`
holds behind one. -/
theorem passes_intercalate {α : Type} {Elem : String → α → Prop} (between : List α → State)
    (Read : List α → State → Prop)
    (helem : ∀ xs x text, Elem text x → ∃ s, Passes (between xs) text s ∧ Read (xs ++ [x]) s)
    (hsep : ∀ xs x s, Read (xs ++ [x]) s → Passes s sep (between (xs ++ [x])))
    {ys : List α} (h : List.Forall₂ Elem texts ys) (hne : texts ≠ []) (xs : List α) :
    ∃ s, Passes (between xs) (sep.intercalate texts) s ∧ Read (xs ++ ys) s := by
  induction h generalizing xs with
  | nil => exact absurd rfl hne
  | @cons text y texts ys hy hys ih =>
    obtain ⟨s, hs, hread⟩ := helem xs y text hy
    cases hys with
    | nil => exact ⟨s, by rwa [String.intercalate_singleton], hread⟩
    | cons hy' hys' =>
      obtain ⟨s', hs', hread'⟩ := ih (List.cons_ne_nil _ _) (xs ++ [y])
      refine ⟨s', ?_, by simpa using hread'⟩
      rw [String.intercalate_cons_cons]
      exact (hs.append (hsep xs y s hread)).append hs'

namespace State.InArray

variable {vs : List Value}

theorem blank {b : String} (h : s.InArray frames vs) (hb : IsBlank b) :
    ∃ s', Passes s b s' ∧ s'.InArray frames vs := by
  cases h with
  | opened => exact ⟨_, .value_blank hb, .opened⟩
  | behind h =>
    obtain ⟨s', hs', hend⟩ := h.blank hb
    exact ⟨s', hs', .behind hend⟩

/-- Behind a separator the next item comes. -/
theorem next (h : s.InArray frames vs) (hne : vs ≠ []) (hsep : IsSeparator sep) :
    Passes s sep (.value (.array vs :: frames)) := by
  cases h with
  | opened => exact absurd rfl hne
  | behind h =>
    refine h.passes ?_ hsep.head
    obtain ⟨b, hb, rfl⟩ := hsep
    exact (Passes.fixed rfl rfl).append (.value_blank hb)

theorem close (h : s.InArray frames vs) : Passes s "]" (.after (.arr vs) frames) := by
  cases h with
  | opened => exact .fixed rfl rfl
  | behind h => exact h.passes (.fixed rfl rfl) rfl

end State.InArray

namespace State.InObject

variable {ms : List (String × Value)}

/-- Behind a separator the next member comes. -/
theorem next (h : s.InObject frames ms) (hne : ms ≠ []) (hsep : IsSeparator sep) :
    Passes s sep (.member ms frames) := by
  cases h with
  | opened => exact absurd rfl hne
  | behind h =>
    refine h.passes ?_ hsep.head
    obtain ⟨b, hb, rfl⟩ := hsep
    exact (Passes.fixed rfl rfl).append (.member_blank hb)

theorem close (h : s.InObject frames ms) : Passes s "\x7d" (.after (.obj ms) frames) := by
  cases h with
  | opened => exact .fixed rfl rfl
  | behind h => exact h.passes (.fixed rfl rfl) rfl

end State.InObject

theorem passes_items (hsep : IsSeparator sep) {vs : List Value} (h : List.Forall₂ Reads texts vs)
    (frames : List Frame) :
    ∃ s, Passes (.value (.array [] :: frames)) (sep.intercalate texts) s ∧ s.InArray frames vs := by
  by_cases hne : texts = []
  · subst hne
    cases h
    exact ⟨_, .fixed rfl rfl, .opened⟩
  refine passes_intercalate (fun vs => .value (.array vs :: frames))
    (fun vs s => s.InArray frames vs) (fun vs v text hv => ?_)
    (fun vs v s hs => hs.next (by simp) hsep) h hne []
  obtain ⟨s, hs, hend⟩ := hv (.array vs :: frames)
  exact ⟨s, hs, .behind hend⟩

theorem passes_members (hsep : IsSeparator sep) {ms : List (String × Value)}
    (h : List.Forall₂ ReadsMember texts ms) (frames : List Frame) :
    ∃ s, Passes (.member [] frames) (sep.intercalate texts) s ∧ s.InObject frames ms := by
  by_cases hne : texts = []
  · subst hne
    cases h
    exact ⟨_, .fixed rfl rfl, .opened⟩
  refine passes_intercalate (fun ms => .member ms frames)
    (fun ms s => s.InObject frames ms) (fun ms m text hm => ?_)
    (fun ms m s hs => hs.next (by simp) hsep) h hne []
  obtain ⟨s, hs, hend⟩ := hm ms frames
  exact ⟨s, hs, .behind hend⟩

end Lists

/-! ## The texts of values -/

/-- An array on one line. -/
theorem reads_array {texts : List String} {vs : List Value} (h : List.Forall₂ Reads texts vs) :
    Reads ("[" ++ ",".intercalate texts ++ "]") (.arr vs) := .of_passes fun _ => by
  obtain ⟨s, hs, hin⟩ := passes_items isSeparator_comma h _
  exact ((Passes.fixed rfl rfl).append hs).append hin.close

/-- An object on one line. -/
theorem reads_object {texts : List String} {ms : List (String × Value)}
    (h : List.Forall₂ ReadsMember texts ms) :
    Reads ("\x7b" ++ ",".intercalate texts ++ "\x7d") (.obj ms) := .of_passes fun _ => by
  obtain ⟨s, hs, hin⟩ := passes_members isSeparator_comma h _
  exact ((Passes.fixed rfl rfl).append hs).append hin.close

theorem Reads.member {text : String} {v : Value} (h : Reads text v) (name : String) :
    ReadsMember (quote name ++ ":" ++ text) (name, v) := fun members frames => by
  obtain ⟨s, hs, hend⟩ := h (.object members name :: frames)
  exact ⟨s, ((passes_name name).append (.fixed rfl rfl)).append hs, hend⟩

mutual

/-- The text of a value is read back. -/
theorem reads_text : ∀ v : Value, Reads v.text v
  | .null => .of_passes fun _ => .fixed rfl rfl
  | .bool true => .of_passes fun _ => .fixed rfl rfl
  | .bool false => .of_passes fun _ => .fixed rfl rfl
  | .int n => reads_int n
  | .str s => .of_passes fun _ => passes_quote s
  | .arr items => by
    rw [Value.text]
    exact reads_array (reads_itemTexts items)
  | .obj members => by
    rw [Value.text]
    exact reads_object (reads_memberTexts members)

theorem reads_itemTexts : ∀ items : List Value, List.Forall₂ Reads (Value.itemTexts items) items
  | [] => .nil
  | v :: vs => by
    rw [Value.itemTexts]
    exact .cons (reads_text v) (reads_itemTexts vs)

theorem reads_memberTexts : ∀ members : List (String × Value),
    List.Forall₂ ReadsMember (Value.memberTexts members) members
  | [] => .nil
  | (name, v) :: ms => by
    rw [Value.memberTexts]
    exact .cons ((reads_text v).member name) (reads_memberTexts ms)

end

example : read "[1, \x7b\"a\": null\x7d]" = some (.arr [.int 1, .obj [("a", .null)]]) := rfl

example : read "[1,]" = none := rfl

/-! ## Fields -/

/-- A name that stands for itself between quotes. -/
def IsVerbatim (name : String) : Prop := quote name = "\"" ++ name ++ "\""

theorem isVerbatim_of_forall {name : String} (h : ∀ c ∈ name.toList, escape c = c.toString) :
    IsVerbatim name := by
  have hjoin : String.join (name.toList.map Char.toString) = name := by
    rw [← String.toList_inj, String.toList_join, List.flatMap_map]
    simp [Char.toString_eq_singleton]
  rw [IsVerbatim, quote, List.map_congr_left h, hjoin]

/-- A field of a node, behind other fields. -/
theorem State.InObject.field {s : State} {frames : List Frame} {ms : List (String × Value)}
    (hs : s.InObject frames ms) (hne : ms ≠ []) {name text : String} {v : Value}
    (hname : IsVerbatim name) (h : Reads text v) :
    ∃ s', Passes s (",\"" ++ name ++ "\":" ++ text) s' ∧ s'.InObject frames (ms ++ [(name, v)]) := by
  obtain ⟨s', hs', hend⟩ := h.member name ms frames
  refine ⟨s', ?_, .behind hend⟩
  have htext : ",\"" ++ name ++ "\":" ++ text = "," ++ (quote name ++ ":" ++ text) := by
    rw [hname, show ",\"" = "," ++ "\"" from rfl, show "\":" = "\"" ++ ":" from rfl]
    simp only [String.append_assoc]
  rw [htext]
  exact (hs.next hne isSeparator_comma).append hs'

/-- An object whose members stand one by one behind its first members. A member that is left out has no
text. -/
theorem passes_fields {α : Type} {text : α → String} (member : α → Option (String × Value))
    {frames : List Frame} {xs : List α}
    (h : ∀ x ∈ xs, ∀ s ms, ms ≠ [] → State.InObject frames ms s →
      ∃ s', Passes s (text x) s' ∧ s'.InObject frames (ms ++ (member x).toList))
    {s₀ s : State} {head : String} {ms : List (String × Value)} (hhead : Passes s₀ head s)
    (hs : s.InObject frames ms) (hne : ms ≠ []) :
    Passes s₀ (head ++ String.join (xs.map text) ++ "\x7d")
      (.after (.obj (ms ++ xs.filterMap member)) frames) := by
  induction xs generalizing s ms head with
  | nil =>
    rw [List.filterMap_nil, List.append_nil]
    simpa using hhead.append hs.close
  | cons x xs ih =>
    obtain ⟨s', hs', hin⟩ := h x List.mem_cons_self s ms hne hs
    have hrest := ih (fun x' hx' => h x' (List.mem_cons_of_mem _ hx')) (hhead.append hs') hin
      (by simp [hne])
    rw [List.map_cons, String.join_cons, ← String.append_assoc]
    cases hx : member x <;> simpa [hx] using hrest

end LosslessGo.Json
