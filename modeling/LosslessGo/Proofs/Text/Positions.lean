import LosslessGo.Proofs.Text.Returns
import Mathlib.Data.List.DropRight
import Mathlib.Data.Prod.Lex

/-!
# Positions by a scan of the text

`scan` reads bytes from left to right: a line feed starts a line, any other byte that starts a
column moves on by one (`scan_eq` counts both). `LineMap.position?` finds the line by binary search
among the line starts and counts the columns from there on.

* `startsFrom`: the line starts of a text as a recursion on its bytes. Those of a text up to an offset
  come first, and their last one is the start of the line there (`getLast?_startsFrom`).
* `search_eq`: the search ends at the last start that is not after the offset.
* `LineMap.position?_eq_scan`: so it gives what the scan gives.
* `LineMap.position?_append`: the position behind a mark, from the one before it.
* `LineMap.position?_complete`: all positions of a text, and those of its twin without carriage returns.
-/

namespace LosslessGo

open Text

namespace LineMap

/-- Line and column after one more byte. -/
def advance (p : Nat × Nat) (b : UInt8) : Nat × Nat :=
  if b = lineFeed then (p.1 + 1, 0) else if startsColumn b then (p.1, p.2 + 1) else p

/-- Line and column after some bytes, from the start of a text on. -/
def scan (bs : List UInt8) : Nat × Nat := bs.foldl advance (1, 0)

theorem scan_concat (bs : List UInt8) (b : UInt8) : scan (bs ++ [b]) = advance (scan bs) b :=
  List.foldl_concat ..

/-- The line counts the line feeds, the column what starts one after the last of them. -/
theorem scan_eq (bs : List UInt8) :
    scan bs = (1 + bs.count lineFeed, (bs.rtakeWhile (· ≠ lineFeed)).countP startsColumn) := by
  induction bs using List.reverseRecOn with
  | nil => rfl
  | append_singleton bs b ih =>
    rw [scan_concat, ih, advance, List.count_append, List.count_singleton]
    by_cases hb : b = lineFeed
    · rw [if_pos hb, List.rtakeWhile_concat_neg _ _ _ (by simpa using hb), if_pos (by simpa using hb)]
      rfl
    · rw [if_neg hb, List.rtakeWhile_concat_pos _ _ _ (by simpa using hb), List.countP_append,
        List.countP_singleton, if_neg (show ¬(b == lineFeed) = true by simpa using hb)]
      split <;> rfl

/-- A carriage return moves neither line nor column. -/
theorem scan_withoutReturns (bs : List UInt8) : scan (bs.filter (· ≠ carriageReturn)) = scan bs := by
  induction bs using List.reverseRecOn with
  | nil => rfl
  | append_singleton bs b ih =>
    rw [List.filter_append, scan_concat, ← ih]
    by_cases hb : b = carriageReturn
    · rw [List.filter_cons_of_neg (by simpa using hb), List.filter_nil, List.append_nil, hb]
      rfl
    · rw [List.filter_cons_of_pos (by simpa using hb), List.filter_nil, scan_concat]

theorem le_advance (p : Nat × Nat) (b : UInt8) : toLex p ≤ toLex (advance p b) := by
  rw [Prod.Lex.toLex_le_toLex, advance]
  split
  · exact .inl (Nat.lt_succ_self _)
  · split
    · exact .inr ⟨rfl, Nat.le_succ _⟩
    · exact .inr ⟨rfl, Nat.le_refl _⟩

/-- What is read further on is not before. -/
theorem scan_le_scan_append (bs cs : List UInt8) : toLex (scan bs) ≤ toLex (scan (bs ++ cs)) := by
  induction cs using List.reverseRecOn with
  | nil => rw [List.append_nil]
  | append_singleton cs c ih =>
    rw [← List.append_assoc, scan_concat]
    exact ih.trans (le_advance _ _)

/-! ## Line starts -/

/-- The offsets after the line feeds of bytes that stand from offset `i` on. -/
def startsFrom (i : Nat) : List UInt8 → List Nat
  | [] => []
  | b :: bs => if b = lineFeed then (i + 1) :: startsFrom (i + 1) bs else startsFrom (i + 1) bs

theorem startsFrom_append (i : Nat) (bs cs : List UInt8) :
    startsFrom i (bs ++ cs) = startsFrom i bs ++ startsFrom (i + bs.length) cs := by
  induction bs generalizing i with
  | nil => rfl
  | cons b bs ih =>
    rw [List.cons_append, startsFrom, startsFrom, ih, List.length_cons, Nat.add_assoc i 1,
      Nat.add_comm 1]
    split <;> rfl

theorem length_startsFrom (i : Nat) (bs : List UInt8) :
    (startsFrom i bs).length = bs.count lineFeed := by
  induction bs generalizing i with
  | nil => rfl
  | cons b bs ih =>
    rw [startsFrom, List.count_cons]
    split
    · rw [List.length_cons, ih, if_pos (by simpa)]
    · rw [ih, if_neg (by simpa), Nat.add_zero]

/-- Line starts stand after the bytes before them and not after the end. -/
theorem mem_startsFrom {i n : Nat} {bs : List UInt8} (h : n ∈ startsFrom i bs) :
    i < n ∧ n ≤ i + bs.length := by
  induction bs generalizing i with
  | nil => cases h
  | cons b bs ih =>
    rw [startsFrom] at h
    rw [List.length_cons]
    split at h
    · obtain rfl | h := List.mem_cons.mp h
      · omega
      · have := ih h
        omega
    · have := ih h
      omega

/-- The last line start of bytes from the start of a text on is where their last line starts. -/
theorem getLast?_startsFrom (bs : List UInt8) :
    (0 :: startsFrom 0 bs).getLast? =
      some (bs.length - (bs.rtakeWhile (· ≠ lineFeed)).length) := by
  induction bs using List.reverseRecOn with
  | nil => rfl
  | append_singleton bs b ih =>
    rw [startsFrom_append, Nat.zero_add, startsFrom, startsFrom, ← List.cons_append,
      List.getLast?_append, ih, List.length_append, List.length_singleton]
    by_cases hb : b = lineFeed
    · rw [List.rtakeWhile_concat_neg _ _ _ (by simpa using hb), if_pos hb]
      rfl
    · rw [List.rtakeWhile_concat_pos _ _ _ (by simpa using hb), if_neg hb, List.length_append,
        List.length_singleton, Nat.add_sub_add_right]
      rfl

theorem lineStarts_foldl (bs : List UInt8) (i : Nat) (starts : Array Nat) :
    bs.foldl (fun (i, starts) b => (i + 1, if b = lineFeed then starts.push (i + 1) else starts))
        (i, starts) = (i + bs.length, starts ++ startsFrom i bs) := by
  induction bs generalizing i starts with
  | nil => simp [startsFrom]
  | cons b bs ih =>
    rw [List.foldl_cons, ih, startsFrom, List.length_cons, Nat.add_assoc, Nat.add_comm 1]
    split <;> simp

theorem lineStarts_eq (text : String) : lineStarts text = (0 :: startsFrom 0 (bytes text)).toArray := by
  rw [lineStarts, ← toByteArray_bytes, List.data_toByteArray, List.foldl_toArray, lineStarts_foldl]
  simp

/-! ## The search -/

/-- Where the starts up to index `r` and no others are at most the offset, the search ends at `r`. -/
theorem search_eq {starts : Array Nat} {offset lo hi r : Nat} (hlo : lo ≤ r) (hhi : r < hi)
    (h : ∀ k < hi, starts.getD k 0 ≤ offset ↔ k ≤ r) : search starts offset lo hi = r := by
  fun_induction search starts offset lo hi with
  | case1 lo hi hclose => omega
  | case2 lo hi hopen mid hmid ih =>
    have hr := (h mid (by omega)).mp hmid
    exact ih hr hhi h
  | case3 lo hi hopen mid hmid ih =>
    have hr : ¬mid ≤ r := fun hr => hmid ((h mid (by omega)).mpr hr)
    exact ih hlo (by omega) fun k hk => h k (by omega)

variable {text : String} {m : LineMap text} {offset : Nat}

theorem length_take_bytes (h : offset ≤ text.utf8ByteSize) :
    ((bytes text).take offset).length = offset := by
  rw [List.length_take, length_bytes, Nat.min_eq_left h]

/-- The line starts of a text: those up to an offset, then those after it. -/
theorem starts_append (m : LineMap text) (h : offset ≤ text.utf8ByteSize) :
    m.starts.toList = (0 :: startsFrom 0 ((bytes text).take offset)) ++
      startsFrom offset ((bytes text).drop offset) := by
  have happend := startsFrom_append 0 ((bytes text).take offset) ((bytes text).drop offset)
  rw [List.take_append_drop, length_take_bytes h, Nat.zero_add] at happend
  rw [m.starts_eq, lineStarts_eq, happend, List.cons_append]

/-- The search finds as many line feeds as stand before the offset. -/
theorem lineIndex_eq (m : LineMap text) (h : offset ≤ text.utf8ByteSize) :
    m.lineIndex offset = ((bytes text).take offset).count lineFeed := by
  have hstarts := m.starts_append h
  have hbefore : (0 :: startsFrom 0 ((bytes text).take offset)).length =
      ((bytes text).take offset).count lineFeed + 1 := by
    rw [List.length_cons, length_startsFrom]
  have hlength := congrArg List.length hstarts
  rw [List.length_append, Array.length_toList, hbefore] at hlength
  refine search_eq (Nat.zero_le _) (by omega) fun k hk => ?_
  rw [Array.getD_eq_getD_getElem?, ← Array.getElem?_toList, hstarts]
  by_cases hle : k ≤ ((bytes text).take offset).count lineFeed
  · have hk : k < (0 :: startsFrom 0 ((bytes text).take offset)).length := by omega
    rw [List.getElem?_append_left hk, List.getElem?_eq_getElem hk, Option.getD_some]
    refine iff_of_true ?_ hle
    obtain hzero | hmem := List.mem_cons.mp (List.getElem_mem hk)
    · omega
    · have hend := (mem_startsFrom hmem).2
      rwa [length_take_bytes h, Nat.zero_add] at hend
  · have hafter : k - (0 :: startsFrom 0 ((bytes text).take offset)).length <
        (startsFrom offset ((bytes text).drop offset)).length := by omega
    rw [List.getElem?_append_right (by omega), List.getElem?_eq_getElem hafter, Option.getD_some]
    exact iff_of_false (Nat.not_le.mpr (mem_startsFrom (List.getElem_mem hafter)).1) hle

/-- The start found is that of the line of the offset. -/
theorem start_eq (m : LineMap text) (h : offset ≤ text.utf8ByteSize) :
    m.starts.getD (m.lineIndex offset) 0 =
      offset - (((bytes text).take offset).rtakeWhile (· ≠ lineFeed)).length := by
  have hlast := getLast?_startsFrom ((bytes text).take offset)
  rw [length_take_bytes h, List.getLast?_eq_getElem?, List.length_cons, length_startsFrom,
    Nat.add_sub_cancel] at hlast
  rw [Array.getD_eq_getD_getElem?, ← Array.getElem?_toList, m.starts_append h, m.lineIndex_eq h,
    List.getElem?_append_left (by rw [List.length_cons, length_startsFrom]; omega), hlast,
    Option.getD_some]

/-! ## Positions -/

theorem countP_range' (p : UInt8 → Bool) (bs : List UInt8) (a n : Nat) :
    ((List.range' a n).countP fun i => bs[i]?.any p) = ((bs.drop a).take n).countP p := by
  induction n generalizing a with
  | zero => rfl
  | succ n ih =>
    rw [List.range'_succ, List.countP_cons, ih]
    obtain hlt | hge := Nat.lt_or_ge a bs.length
    · rw [List.drop_eq_getElem_cons hlt, List.take_succ_cons, List.countP_cons,
        List.getElem?_eq_getElem hlt, Option.any_some]
    · rw [List.drop_eq_nil_of_le hge, List.drop_eq_nil_of_le (Nat.le_succ_of_le hge),
        List.getElem?_eq_none hge, List.take_nil, List.take_nil]
      rfl

/-- The columns to an offset are those of the last line of the bytes before it. -/
theorem columnsBetween_eq (m : LineMap text) (h : offset ≤ text.utf8ByteSize) :
    columnsBetween text (m.starts.getD (m.lineIndex offset) 0) offset =
      (((bytes text).take offset).rtakeWhile (· ≠ lineFeed)).countP startsColumn := by
  have hsuffix := List.rtakeWhile_suffix (· ≠ lineFeed) ((bytes text).take offset)
  have hdrop := List.suffix_iff_eq_drop.mp hsuffix
  rw [length_take_bytes h] at hdrop
  simp only [columnsBetween, byteAt?_eq]
  rw [countP_range', ← List.drop_take, m.start_eq h, ← hdrop]

/-- The offset is the end of a text that ends with a carriage return. -/
def AtFinalReturn (text : String) (offset : Nat) : Prop :=
  offset = text.utf8ByteSize ∧ (bytes text).getLast? = some carriageReturn

instance : Decidable (AtFinalReturn text offset) :=
  inferInstanceAs (Decidable (_ ∧ _))

theorem atFinalReturn_iff : AtFinalReturn text offset ↔
    0 < offset ∧ offset = text.utf8ByteSize ∧ endsWithCarriageReturn text := by
  rw [AtFinalReturn, endsWithCarriageReturn, byteAt?_eq, List.getLast?_eq_getElem?, length_bytes,
    beq_iff_eq]
  refine ⟨fun ⟨hend, hlast⟩ => ⟨?_, hend, hlast⟩, fun h => h.2⟩
  have := lt_of_byteAt? ((byteAt?_eq text _).trans hlast)
  omega

theorem position?_eq_none : m.position? offset = none ↔ text.utf8ByteSize < offset := by
  rw [position?]
  split
  · exact iff_of_true rfl ‹_›
  · refine iff_of_false ?_ ‹_›
    dsimp only
    split <;> exact Option.some_ne_none _

/-- The position found by the search is that of a scan, except after a carriage return that ends the
text. -/
theorem position?_eq_scan (m : LineMap text) (h : offset ≤ text.utf8ByteSize)
    (hfinal : ¬AtFinalReturn text offset) :
    m.position? offset = some (scan ((bytes text).take offset)) := by
  rw [atFinalReturn_iff] at hfinal
  rw [position?, if_neg (Nat.not_lt.mpr h)]
  dsimp only
  rw [if_neg hfinal, m.columnsBetween_eq h, m.lineIndex_eq h, scan_eq, Nat.add_comm]

/-- There it is the start of the line after that of the scan. -/
theorem position?_atFinalReturn (m : LineMap text) (hfinal : AtFinalReturn text offset) :
    m.position? offset = some ((scan ((bytes text).take offset)).1 + 1, 0) := by
  have h := Nat.le_of_eq hfinal.1
  rw [atFinalReturn_iff] at hfinal
  rw [position?, if_neg (Nat.not_lt.mpr h)]
  dsimp only
  rw [if_pos hfinal, m.lineIndex_eq h, scan_eq]
  simp only [Option.some.injEq, Prod.mk.injEq, and_true]
  omega

/-- Positions of later offsets are not before. -/
theorem position?_mono (m : LineMap text) {a b : Nat} {p q : Nat × Nat} (hab : a ≤ b)
    (ha : m.position? a = some p) (hb : m.position? b = some q) : toLex p ≤ toLex q := by
  have hbound {o : Nat} {r : Nat × Nat} (h : m.position? o = some r) : o ≤ text.utf8ByteSize :=
    Nat.not_lt.mp fun hlt => by cases (position?_eq_none.mpr hlt).symm.trans h
  have hprefix : toLex (scan ((bytes text).take a)) ≤ toLex (scan ((bytes text).take b)) := by
    obtain ⟨cs, hcs⟩ := List.take_prefix_take_left hab (l := bytes text)
    rw [← hcs]
    exact scan_le_scan_append _ _
  by_cases hfinal : AtFinalReturn text a
  · -- nothing stands after the end
    obtain rfl : a = b := Nat.le_antisymm hab (hfinal.1 ▸ hbound hb)
    obtain rfl : p = q := Option.some.inj (ha.symm.trans hb)
    exact le_refl _
  obtain rfl := Option.some.inj ((m.position?_eq_scan (hbound ha) hfinal).symm.trans ha)
  by_cases hend : AtFinalReturn text b
  · obtain rfl := Option.some.inj ((m.position?_atFinalReturn hend).symm.trans hb)
    refine hprefix.trans ?_
    rw [Prod.Lex.toLex_le_toLex]
    exact .inl (Nat.lt_succ_self _)
  · obtain rfl := Option.some.inj ((m.position?_eq_scan (hbound hb) hend).symm.trans hb)
    exact hprefix

/-! ## Marks -/

theorem scan_append_of_plain {bs cs : List UInt8}
    (h : ∀ b ∈ cs, b ≠ lineFeed ∧ startsColumn b = true) :
    scan (bs ++ cs) = ((scan bs).1, (scan bs).2 + cs.length) := by
  induction cs using List.reverseRecOn with
  | nil => rw [List.append_nil, List.length_nil, Nat.add_zero]
  | append_singleton cs c ih =>
    obtain ⟨hline, hcolumn⟩ := h c (by simp)
    rw [← List.append_assoc, scan_concat, ih fun b hb => h b (by simp [hb]), advance, if_neg hline,
      if_pos hcolumn, List.length_append, List.length_singleton, Nat.add_assoc]

/-- Behind a mark whose bytes all start a column the line is that before the mark, and the column is
further by its size. -/
theorem position?_append (m : LineMap text) {before mark after : String}
    (htext : text = before ++ mark ++ after)
    (hmark : ∀ b ∈ bytes mark, b ≠ lineFeed ∧ startsColumn b = true) {p : Nat × Nat}
    (hp : m.position? before.utf8ByteSize = some p) :
    m.position? (before ++ mark).utf8ByteSize = some (p.1, p.2 + mark.utf8ByteSize) := by
  by_cases hempty : mark = ""
  · rw [hempty, String.append_empty, hp]
    rfl
  have hbytes : bytes text = bytes before ++ bytes mark ++ bytes after := by
    rw [htext, bytes_append, bytes_append]
  have hpos : 0 < mark.utf8ByteSize :=
    Nat.pos_of_ne_zero fun h => hempty (String.utf8ByteSize_eq_zero_iff.mp h)
  have hsize : text.utf8ByteSize =
      before.utf8ByteSize + mark.utf8ByteSize + after.utf8ByteSize := by
    rw [htext, String.utf8ByteSize_append, String.utf8ByteSize_append]
  have hstart : ¬AtFinalReturn text before.utf8ByteSize := fun hfinal => by
    have hend := hfinal.1
    omega
  -- Behind the mark the text may end, but with the mark.
  have hstop : ¬AtFinalReturn text (before ++ mark).utf8ByteSize := by
    rintro ⟨hend, hlast⟩
    rw [String.utf8ByteSize_append] at hend
    have hafter : bytes after = [] := by
      rw [← List.length_eq_zero_iff, length_bytes]
      omega
    have hne : bytes mark ≠ [] := List.ne_nil_of_length_pos (by rwa [length_bytes])
    rw [hbytes, hafter, List.append_nil, List.getLast?_append_of_ne_nil _ hne] at hlast
    have hcolumn := (hmark _ (List.mem_of_getLast? hlast)).2
    revert hcolumn
    decide
  rw [m.position?_eq_scan (by omega) hstart, hbytes, List.append_assoc,
    List.take_left' (length_bytes before), Option.some.injEq] at hp
  rw [m.position?_eq_scan (by rw [String.utf8ByteSize_append]; omega) hstop, hbytes,
    List.take_left' (by rw [← bytes_append, length_bytes]), scan_append_of_plain hmark, hp,
    length_bytes]

/-! ## The twin without carriage returns -/

theorem length_withoutReturns (h : offset ≤ text.utf8ByteSize) :
    (((bytes text).take offset).filter (· ≠ carriageReturn)).length =
      offset - ((bytes text).take offset).count carriageReturn := by
  have hcount := List.length_eq_countP_add_countP (· == carriageReturn) (l := (bytes text).take offset)
  rw [length_take_bytes h] at hcount
  rw [← List.countP_eq_length_filter, List.count]
  simp only [ne_eq, decide_not, beq_iff_eq] at hcount ⊢
  omega

/-- The bytes before an offset that are no carriage returns come first in the twin. -/
theorem withoutReturns_prefix (text : String) (offset : Nat) :
    ((bytes text).take offset).filter (· ≠ carriageReturn) <+: bytes (withoutCarriageReturns text) := by
  rw [bytes_withoutCarriageReturns]
  exact (List.take_prefix _ _).filter _

theorem not_atFinalReturn_withoutCarriageReturns (text : String) (offset : Nat) :
    ¬AtFinalReturn (withoutCarriageReturns text) offset := by
  rintro ⟨-, hlast⟩
  have hmem := List.mem_of_getLast? hlast
  rw [bytes_withoutCarriageReturns] at hmem
  simpa using List.of_mem_filter hmem

/-- A position is that of the twin without carriage returns at what is left of the offset. -/
theorem position?_withoutCarriageReturns (m : LineMap text)
    (twin : LineMap (withoutCarriageReturns text)) (h : offset ≤ text.utf8ByteSize)
    (hfinal : ¬AtFinalReturn text offset) :
    twin.position? (offset - ((bytes text).take offset).count carriageReturn) =
      m.position? offset := by
  have hprefix := withoutReturns_prefix text offset
  have hbound := hprefix.length_le
  have htake := List.prefix_iff_eq_take.mp hprefix
  rw [length_withoutReturns h] at hbound htake
  rw [length_bytes] at hbound
  rw [twin.position?_eq_scan hbound (not_atFinalReturn_withoutCarriageReturns _ _), ← htake,
    scan_withoutReturns, m.position?_eq_scan h hfinal]

/-- Every offset up to the end of a text has a position, and no other has. The line counts the line
feeds before the offset, and the column the bytes after the last of them that are no carriage returns
and continue no character; but the end of a text that ends with a carriage return is the start of the
next line. Positions are in the order of the offsets, and they are those of the twin without carriage
returns where the text does not end with one. -/
theorem position?_complete (m : LineMap text) :
    (∀ offset, m.position? offset = none ↔ text.utf8ByteSize < offset) ∧
      (∀ offset ≤ text.utf8ByteSize, m.position? offset = some
        (let before := (bytes text).take offset
        if AtFinalReturn text offset then (1 + before.count lineFeed + 1, 0)
        else (1 + before.count lineFeed, (before.rtakeWhile (· ≠ lineFeed)).countP
          fun b => b ≠ carriageReturn ∧ b &&& 0xC0 ≠ 0x80))) ∧
      (∀ a b p q, a ≤ b → m.position? a = some p → m.position? b = some q → toLex p ≤ toLex q) ∧
      ∀ offset ≤ text.utf8ByteSize, ¬AtFinalReturn text offset →
        ∀ twin : LineMap (withoutCarriageReturns text),
          twin.position? (offset - ((bytes text).take offset).count carriageReturn) =
            m.position? offset := by
  refine ⟨fun _ => position?_eq_none, fun offset h => ?_, fun _ _ _ _ => m.position?_mono,
    fun _ h hfinal twin => m.position?_withoutCarriageReturns twin h hfinal⟩
  have hcolumn : (fun b => decide (b ≠ carriageReturn ∧ b &&& 0xC0 ≠ 0x80)) = startsColumn := by
    funext b
    simp [startsColumn, bne, Bool.decide_and, beq_eq_decide]
  dsimp only
  rw [hcolumn]
  split
  next hfinal => rw [m.position?_atFinalReturn hfinal, scan_eq]
  next hfinal => rw [m.position?_eq_scan h hfinal, scan_eq]

/-- A text with all that columns pass over. -/
def columnSource : String := "aé\r\n€\rb\r"

theorem position?_complete_columnSource :
    (LineMap.ofText columnSource).position? 12 = none ∧
      (LineMap.ofText columnSource).position? 10 = some (2, 2) ∧
      (LineMap.ofText columnSource).position? 11 = some (3, 0) ∧
      toLex (2, 2) ≤ toLex (3, 0) ∧
      (LineMap.ofText (withoutCarriageReturns columnSource)).position? 8 = some (2, 2) := by
  have h := position?_complete (LineMap.ofText columnSource)
  have hinner : (LineMap.ofText columnSource).position? 10 = some (2, 2) := by
    rw [h.2.1 10 (by decide +kernel)]
    decide +kernel
  have hend : (LineMap.ofText columnSource).position? 11 = some (3, 0) := by
    rw [h.2.1 11 (by decide +kernel)]
    decide +kernel
  have hreturns : ((bytes columnSource).take 10).count carriageReturn = 2 := by decide +kernel
  have htwin := h.2.2.2 10 (by decide +kernel) (by decide +kernel)
    (LineMap.ofText (withoutCarriageReturns columnSource))
  rw [hreturns, hinner] at htwin
  exact ⟨(h.1 12).mpr (by decide +kernel), hinner, hend,
    h.2.2.1 10 11 _ _ (by decide) hinner hend, htwin⟩

end LineMap

end LosslessGo
