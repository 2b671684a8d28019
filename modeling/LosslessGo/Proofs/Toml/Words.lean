import LosslessGo.Proofs.Toml.Spelling
import LosslessGo.Toml.Quote
import LosslessGo.Toml.Read

/-!
# Words that are read

A value that stands in a line is read where its word ends (`IsWritten`): at the line end, which no value
goes across. So all words are read that stand for a value (`isWritten_of_spells`).

* `isWritten_str`: strings in double quotes.
* `isWritten_nat`: numbers up to the greatest integer. Digits could also start a date or a number with a
  point, and the line end rules both out.
* `isWritten_true`, `isWritten_false`: the two words.
* `quote_eq_plainQuote`: strings of plain characters are written in double quotes.
-/

namespace LosslessGo.Toml

variable {body cs ds rest : List Char} {c x : Char} {s : String} {n : Nat}

/-- A value is read from its word at the end of a line, after blanks and at any depth. -/
def IsWritten (word : List Char) (v : Value) : Prop :=
  ∀ room rest, readValue room (skipBlanks (word ++ '\n' :: rest)) = some (v, '\n' :: rest)

/-! ## First characters -/

section FirstCharacters

variable {test : Char → Bool}

theorem ne_of_test (hc : test c = true) (hx : test x = false) : c ≠ x := by
  rintro rfl
  rw [hc] at hx
  cases hx

/-- Texts differ if a test tells their first characters apart. -/
theorem cons_ne_of_test (hc : test c = true) (hx : test x = false) : c :: cs ≠ x :: ds := fun heq =>
  ne_of_test hc hx (List.cons.inj heq).1

theorem isBlank_of_test (hc : test c = true) (hspace : test ' ' = false) (htab : test '\t' = false) :
    isBlank c = false := by
  simp [isBlank, ne_of_test hc hspace, ne_of_test hc htab]

end FirstCharacters

/-! ## Scalars -/

/-- A value of another kind than arrays and tables has no others inside. -/
theorem readValue_eq_scanScalar (hc : c ≠ '[') (hc' : c ≠ '\x7b') (room : Nat) (cs : List Char) :
    readValue room (c :: cs) = scanScalar (c :: cs) := by
  cases room <;>
  · unfold readValue
    split
    · rename_i h
      exact absurd (List.cons.inj h).1 hc
    · rename_i h
      exact absurd (List.cons.inj h).1 hc'
    · rfl

theorem skipBlanks_of_ne_blank (hc : isBlank c = false) (cs : List Char) :
    skipBlanks (c :: cs) = c :: cs := by
  rw [skipBlanks, List.dropWhile_cons_of_neg (by simp [hc])]

/-- A scalar that does not start like a blank or a bracket is a value. -/
theorem isWritten_of_scanScalar (hblank : isBlank c = false) (hc : c ≠ '[') (hc' : c ≠ '\x7b') {v : Value}
    (h : ∀ rest, scanScalar (c :: cs ++ '\n' :: rest) = some (v, '\n' :: rest)) :
    IsWritten (c :: cs) v := by
  intro room rest
  have hscan := h rest
  rw [List.cons_append] at hscan ⊢
  rw [skipBlanks_of_ne_blank hblank, readValue_eq_scanScalar hc hc', hscan]

theorem isWritten_true : IsWritten ['t', 'r', 'u', 'e'] (.bool true) :=
  isWritten_of_scanScalar rfl (by decide) (by decide) fun _ => rfl

theorem isWritten_false : IsWritten ['f', 'a', 'l', 's', 'e'] (.bool false) :=
  isWritten_of_scanScalar rfl (by decide) (by decide) fun _ => rfl

/-! ## Strings -/

theorem IsPlain.ne (h : IsPlain c) (hx : isPrintable x = false) : c ≠ x := ne_of_test h.printable hx

theorem IsPlain.isControl_eq (h : IsPlain c) : isControl c = false := by
  have hprintable := h.printable
  simp only [isPrintable, Bool.or_eq_true, beq_iff_eq, Bool.and_eq_true, decide_eq_true_eq,
    bne_iff_ne] at hprintable
  rcases hprintable with rfl | ⟨hle, hne⟩
  · rfl
  · have hlt : ¬c.val < 0x20 := UInt32.not_lt.mpr hle
    simp [isControl, hlt, hne]

theorem toList_quoted (h : ∀ c ∈ cs, IsPlain c) : (quoted 0 0 cs).toList = contentOf cs := by
  induction cs with
  | nil => rfl
  | cons c cs ih =>
    obtain ⟨hc, hcs⟩ := List.forall_mem_cons.mp h
    rw [quoted, if_neg hc.ne_quote, String.toList_append, ih hcs, contentOf_cons,
      if_neg (hc.ne rfl)]
    by_cases htab : c = '\t'
    · rw [if_pos htab, if_pos htab]
      rfl
    · rw [if_neg htab, if_neg htab, if_neg (hc.ne rfl), if_neg (hc.ne rfl), if_neg (hc.ne rfl),
        if_neg hc.ne_backslash, hc.isControl_eq, if_neg Bool.false_ne_true,
        Char.toString_eq_singleton, String.toList_singleton]

theorem longestRun_of_notMem (h : c ∉ cs) : longestRun c 0 cs = 0 := by
  induction cs with
  | nil => rfl
  | cons x cs ih =>
    obtain ⟨hx, hcs⟩ := not_or.mp (mt List.mem_cons.mpr h)
    rw [longestRun, if_neg (Ne.symm hx), ih hcs, Nat.max_self]

/-- A string of plain characters is written in double quotes. -/
theorem quote_eq_plainQuote (h : ∀ c ∈ s.toList, IsPlain c) : quote s = plainQuote s := by
  have hcontrols : s.toList.any isControl = false := by
    rw [List.any_eq_false]
    intro c hc
    simp [(h c hc).isControl_eq]
  have hnone {x : Char} (hx : ∀ c, IsPlain c → c ≠ x) : x ∉ s.toList := fun hmem => hx x (h x hmem) rfl
  have hescapes : '\\' ∉ s.toList := hnone fun c hc => hc.ne_backslash
  have hlines : '\n' ∉ s.toList := hnone fun c hc => hc.ne rfl
  have hdoubles : longestRun '"' 0 s.toList = 0 :=
    longestRun_of_notMem (hnone fun c hc => hc.ne_quote)
  have hquote : quote s = "\"" ++ quoted 0 0 s.toList ++ "\"" := by
    simp [quote, hcontrols, hescapes, hlines, hdoubles]
  rw [hquote, plainQuote, ← toList_quoted h, String.ofList_toList]

/-- What quotes hold is read up to the closing one. -/
theorem basicBody_of_quotes (h : Quotes body cs) (rest : List Char) :
    basicBody (body ++ '"' :: rest) = some (cs, rest) := by
  induction h with
  | nil => rfl
  | @plain c body cs hc _ ih =>
    rw [List.cons_append, basicBody, if_pos hc.printable, ih]
    · rfl
    · exact hc.ne_quote
    all_goals
      intros
      exact absurd ‹_› hc.ne_backslash
  | @tab body cs _ ih =>
    show (shortEscape? 't').bind (fun x => prepend x (basicBody (body ++ '"' :: rest))) = _
    rw [ih]
    rfl

/-- At the end of a line, the opening quote is not the first of three. -/
theorem Quotes.append_ne (h : Quotes body cs) (after : List Char) :
    body ++ '"' :: '\n' :: rest ≠ '"' :: '"' :: after := by
  intro heq
  cases h with
  | nil => exact absurd (List.cons.inj (List.cons.inj heq).2).1 (by decide)
  | plain hc _ => exact absurd (List.cons.inj heq).1 hc.ne_quote
  | tab _ => exact absurd (List.cons.inj heq).1 (by decide)

theorem isWritten_str (h : Quotes body cs) :
    IsWritten ('"' :: body ++ ['"']) (.str (String.ofList cs)) := by
  show IsWritten ('"' :: (body ++ ['"'])) _
  refine isWritten_of_scanScalar rfl (by decide) (by decide) fun rest => ?_
  have hstring : scanString ('"' :: (body ++ '"' :: '\n' :: rest)) =
      some (String.ofList cs, '\n' :: rest) := by
    rw [scanString, basicBody_of_quotes h]
    · rfl
    · exact h.append_ne
  rw [List.cons_append, List.append_assoc, List.singleton_append]
  show (scanString _).map _ = _
  rw [hstring]
  rfl

/-! ## Numbers -/

/-- Digits have their decimal value. -/
theorem numberOf_eq (h : ∀ c ∈ ds, c.isDigit = true) : numberOf 10 ds = Nat.ofDigitChars 10 ds 0 := by
  refine List.foldl_ext _ _ _ fun n c hc => ?_
  have hdigit := h c hc
  simp only [Char.isDigit, Bool.and_eq_true, decide_eq_true_eq] at hdigit
  have hvalue : hexValue? c = some (c.toNat - '0'.toNat) := if_pos hdigit
  rw [hvalue, Option.getD_some]

theorem digitTail_digits (h : ∀ c ∈ ds, c.isDigit = true) (rest : List Char) :
    digitTail Char.isDigit (ds ++ '\n' :: rest) = (ds, '\n' :: rest) := by
  induction ds with
  | nil => cases rest <;> rfl
  | cons c ds ih =>
    obtain ⟨hc, hds⟩ := List.forall_mem_cons.mp h
    rw [List.cons_append, digitTail, if_pos hc, ih hds]
    intros
    exact absurd ‹_› (ne_of_test hc rfl)

theorem scanDigits_digits (hne : ds ≠ []) (h : ∀ c ∈ ds, c.isDigit = true) (rest : List Char) :
    scanDigits Char.isDigit (ds ++ '\n' :: rest) = some (ds, '\n' :: rest) := by
  cases ds with
  | nil => exact absurd rfl hne
  | cons c ds =>
    obtain ⟨hc, hds⟩ := List.forall_mem_cons.mp h
    rw [List.cons_append, scanDigits, if_pos hc, digitTail_digits hds]

/-- Decimal digits are all the number at their place. -/
theorem scanDecimal_decimal (h : IsDecimal ds) (rest : List Char) :
    scanDecimal (ds ++ '\n' :: rest) = some (ds, '\n' :: rest) := by
  by_cases hzero : ds.head? = some '0'
  · rw [h.eq_zero hzero]
    rfl
  · rw [← scanDigits_digits h.ne_nil h.digits rest]
    obtain ⟨c, ds, rfl⟩ := List.exists_cons_of_ne_nil h.ne_nil
    rw [List.cons_append, scanDecimal]
    intros
    simp_all

/-- There is a first digit. -/
theorem IsDecimal.exists_cons (h : IsDecimal ds) :
    ∃ c ds', ds = c :: ds' ∧ c.isDigit = true ∧ ∀ c ∈ ds', c.isDigit = true := by
  obtain ⟨c, ds', rfl⟩ := List.exists_cons_of_ne_nil h.ne_nil
  exact ⟨c, ds', rfl, List.forall_mem_cons.mp h.digits⟩

theorem scanSign_digit (hc : c.isDigit = true) (cs : List Char) :
    scanSign (c :: cs) = (false, c :: cs) := by
  rw [scanSign] <;>
  · intro _ heq
    exact cons_ne_of_test hc rfl heq

/-! ### Dates -/

/-- A number of fixed length ends before the line does. -/
theorem of_scanFixed_digits {count low high : Nat} {out : List Char}
    (h : ∀ c ∈ ds, c.isDigit = true)
    (hscan : scanFixed count low high (ds ++ '\n' :: rest) = some (n, out)) :
    ∃ ds', (∀ c ∈ ds', c.isDigit = true) ∧ out = ds' ++ '\n' :: rest := by
  unfold scanFixed at hscan
  dsimp only at hscan
  split at hscan
  · rename_i hcond
    obtain ⟨-, hall, -⟩ := hcond
    obtain ⟨-, rfl⟩ := Prod.mk.inj (Option.some.inj hscan)
    have hle : count ≤ ds.length := by
      by_contra hlt
      have hmem : '\n' ∈ (ds ++ '\n' :: rest).take count := by
        refine List.mem_of_getElem? (i := ds.length) ?_
        rw [List.getElem?_take_of_lt (Nat.lt_of_not_le hlt), List.getElem?_append_right (Nat.le_refl _),
          Nat.sub_self]
        rfl
      exact absurd (List.all_eq_true.mp hall _ hmem) (by decide)
    refine ⟨ds.drop count, fun c hc => h c (List.mem_of_mem_drop hc), ?_⟩
    rw [List.drop_append_of_le_length hle]
  · cases hscan

/-- No mark stands in a numeral. -/
theorem after?_digits {mark : Char} (h : ∀ c ∈ ds, c.isDigit = true) (hmark : mark.isDigit = false)
    (hne : mark ≠ '\n') (rest : List Char) : after? mark (ds ++ '\n' :: rest) = none := by
  cases ds with
  | nil => exact if_neg (Ne.symm hne)
  | cons c ds => exact if_neg (ne_of_test (h c List.mem_cons_self) hmark)

theorem after?_of_scanFixed {mark : Char} {count low high : Nat} {out : List Char}
    (h : ∀ c ∈ ds, c.isDigit = true)
    (hscan : scanFixed count low high (ds ++ '\n' :: rest) = some (n, out))
    (hmark : mark.isDigit = false) (hne : mark ≠ '\n') : after? mark out = none := by
  obtain ⟨ds', hds', rfl⟩ := of_scanFixed_digits h hscan
  exact after?_digits hds' hmark hne rest

theorem scanDateTime?_digits (h : ∀ c ∈ ds, c.isDigit = true) (rest : List Char) :
    scanDateTime? (ds ++ '\n' :: rest) = none := by
  have hdate : date? (ds ++ '\n' :: rest) = none := by
    unfold date?
    cases hscan : scanFixed 4 0 9999 (ds ++ '\n' :: rest) with
    | none => rfl
    | some r =>
      have hafter : after? '-' r.2 = none := after?_of_scanFixed h hscan rfl (by decide)
      simp only [Option.bind_some, Option.bind_eq_bind, hafter, Option.bind_none]
  have htime : time? (ds ++ '\n' :: rest) = none := by
    unfold time?
    cases hscan : scanFixed 2 0 23 (ds ++ '\n' :: rest) with
    | none => rfl
    | some r =>
      have hafter : after? ':' r.2 = none := after?_of_scanFixed h hscan rfl (by decide)
      simp only [Option.bind_some, Option.bind_eq_bind, hafter, Option.bind_none]
  rw [scanDateTime?, hdate, htime]
  rfl

/-! ### Integers -/

theorem scanFloat?_decimal (h : IsDecimal ds) (rest : List Char) :
    scanFloat? (ds ++ '\n' :: rest) = none := by
  have hscan := scanDecimal_decimal h rest
  obtain ⟨c, ds, rfl, hc, -⟩ := h.exists_cons
  rw [List.cons_append] at hscan ⊢
  unfold scanFloat?
  rw [scanSign_digit hc]
  dsimp only
  split
  · exact absurd ‹_› (cons_ne_of_test hc rfl)
  · exact absurd ‹_› (cons_ne_of_test hc rfl)
  · rw [hscan]
    rfl

/-- A number is read from its digits. No base is given behind a leading zero, as the next character is a
digit or the line end. -/
theorem scanInteger?_decimal (h : IsDecimal ds) (hn : fits (Nat.ofDigitChars 10 ds 0) = true)
    (rest : List Char) :
    scanInteger? (ds ++ '\n' :: rest) = some ((Nat.ofDigitChars 10 ds 0 : Int), '\n' :: rest) := by
  have hscan := scanDecimal_decimal h rest
  rw [← numberOf_eq h.digits] at hn ⊢
  obtain ⟨c, ds, rfl, hc, hds⟩ := h.exists_cons
  have hbase {base : Char} (hbase : base.isDigit = false) (hne : base ≠ '\n') (cs : List Char) :
      ds ++ '\n' :: rest ≠ base :: cs := by
    intro heq
    have hafter := after?_digits hds hbase hne rest
    rw [heq, after?, if_pos rfl] at hafter
    cases hafter
  rw [List.cons_append] at hscan ⊢
  unfold scanInteger?
  split
  · exact absurd (List.cons.inj ‹_›).2 (hbase rfl (by decide) _)
  · exact absurd (List.cons.inj ‹_›).2 (hbase rfl (by decide) _)
  · exact absurd (List.cons.inj ‹_›).2 (hbase rfl (by decide) _)
  · rw [scanSign_digit hc]
    dsimp only
    rw [hscan, Option.bind_some, if_neg Bool.false_ne_true, if_pos hn]

/-- What starts with a digit is a date or a number. -/
theorem scanScalar_digit (hc : c.isDigit = true) (cs : List Char) :
    scanScalar (c :: cs) =
      ((scanDateTime? (c :: cs)).map fun (_, rest) => (Value.datetime, rest)).or
        (((scanFloat? (c :: cs)).map fun (_, rest) => (Value.float, rest)).or
          ((scanInteger? (c :: cs)).map fun (n, rest) => (.int n, rest))) := by
  rw [scanScalar] <;>
  · intros
    exact cons_ne_of_test hc rfl ‹_›

theorem isWritten_nat (h : IsDecimal ds) (hn : fits (Nat.ofDigitChars 10 ds 0) = true) :
    IsWritten ds (.int (Nat.ofDigitChars 10 ds 0)) := by
  have hdate := scanDateTime?_digits h.digits
  have hfloat := scanFloat?_decimal h
  have hint := scanInteger?_decimal h hn
  obtain ⟨c, ds, rfl, hc, -⟩ := h.exists_cons
  simp only [List.cons_append] at hdate hfloat hint
  refine isWritten_of_scanScalar (isBlank_of_test hc rfl rfl) (ne_of_test hc rfl) (ne_of_test hc rfl)
    fun rest => ?_
  rw [List.cons_append, scanScalar_digit hc, hdate, hfloat, hint]
  rfl

/-- All words for a value are read as it. -/
theorem isWritten_of_spells {a : Scalar} (h : Spells cs a) : IsWritten cs a.toValue := by
  cases h with
  | true => exact isWritten_true
  | false => exact isWritten_false
  | nat hdecimal hfits => exact isWritten_nat hdecimal hfits
  | str hquotes => exact isWritten_str hquotes

end LosslessGo.Toml
