import LosslessGo.Proofs.Entries
import LosslessGo.Proofs.Toml.Words

/-!
# Sections that are read

A text is read line by line, whatever follows a line (`ReadsAs`). Headers and pairs with keys that need
no quotes are such lines, if the values are (`readsAs_header`, `readsAs_pair`).

* `rootOf`: the table of some sections.
* `add_header`, `add_pair`: what one line adds to the table of the sections before it.
* `foldlM_entriesOf`: the lines of sections make their table.
* `parse?_of_shows`: so every text of sections, no two of one name, stands for it.
-/

namespace LosslessGo.Toml

variable {cs cs' : List Char} {es es' : List Entry} {e : Entry} {k text : String} {v : Value}

/-! ## Lines -/

/-- A text is read as some entries, whatever follows it. -/
def ReadsAs (cs : List Char) (es : List Entry) : Prop :=
  ∀ rest, readEntries (cs ++ rest) = (readEntries rest).map (es ++ ·)

namespace ReadsAs

theorem nil : ReadsAs [] [] := fun rest => by simp

theorem append (h : ReadsAs cs es) (h' : ReadsAs cs' es') : ReadsAs (cs ++ cs') (es ++ es') := by
  intro rest
  rw [List.append_assoc, h, h', Option.map_map]
  simp [Function.comp_def]

theorem readEntries_eq (h : ReadsAs cs es) : readEntries cs = some es := by
  have hall := h []
  rwa [List.append_nil, readEntries, Option.map_some, List.append_nil] at hall

/-- A line is read for itself. -/
theorem of_readEntry (hne : cs ≠ []) (h : ∀ rest, readEntry (cs ++ rest) = some (e, rest)) :
    ReadsAs cs [e] := by
  intro rest
  obtain ⟨c, cs, rfl⟩ := List.exists_cons_of_ne_nil hne
  have hentry := h rest
  have hlt : rest.length < (c :: (cs ++ rest)).length := by
    rw [List.length_cons, List.length_append]
    omega
  rw [List.cons_append] at hentry ⊢
  rw [readEntries, hentry]
  dsimp only
  rw [dif_pos hlt]
  rfl

end ReadsAs

theorem readsAs_newline : ReadsAs ['\n'] [.nothing] :=
  .of_readEntry (List.cons_ne_nil _ _) fun _ => rfl

/-! ## Keys -/

theorem skipBlanks_bare {c : Char} (hc : isBare c = true) (cs : List Char) :
    skipBlanks (c :: cs) = c :: cs :=
  skipBlanks_of_ne_blank (isBlank_of_test hc rfl rfl) cs

theorem IsBareKey.exists_cons (hk : IsBareKey k) :
    ∃ c cs, k.toList = c :: cs ∧ isBare c = true ∧ ∀ c ∈ cs, isBare c = true := by
  obtain ⟨c, cs, hcons⟩ := List.exists_cons_of_ne_nil hk.ne_nil
  have hall := List.all_eq_true.mp hk.bare
  rw [hcons, List.forall_mem_cons] at hall
  exact ⟨c, cs, hcons, hall⟩

theorem scanSimpleKey_bare (hk : IsBareKey k) {x : Char} (hx : isBare x = false) (rest : List Char) :
    scanSimpleKey (k.toList ++ x :: rest) = some (k, x :: rest) := by
  have hbare := List.all_eq_true.mp hk.bare
  have htake : (k.toList ++ x :: rest).takeWhile isBare = k.toList := by
    rw [List.takeWhile_append_of_pos hbare, List.takeWhile_cons_of_neg (by simp [hx]), List.append_nil]
  have hdrop : (k.toList ++ x :: rest).dropWhile isBare = x :: rest := by
    rw [List.dropWhile_append_of_pos hbare, List.dropWhile_cons_of_neg (by simp [hx])]
  obtain ⟨c, cs, hcons, hc, -⟩ := hk.exists_cons
  unfold scanSimpleKey
  split
  · rename_i heq
    rw [hcons] at heq
    exact absurd heq (cons_ne_of_test hc rfl)
  · rename_i heq
    rw [hcons] at heq
    exact absurd heq (cons_ne_of_test hc rfl)
  · rw [htake, hdrop, if_neg (by simpa using hk.ne_nil), String.ofList_toList]

/-- A key without quotes ends where a character needs them. -/
theorem scanKey_bare (hk : IsBareKey k) {x : Char} (hx : isBare x = false) {rest : List Char}
    (hdot : ∀ cs, skipBlanks (x :: rest) ≠ '.' :: cs) :
    scanKey (k.toList ++ x :: rest) = some ([k], skipBlanks (x :: rest)) := by
  obtain ⟨c, cs, hcons, hc, -⟩ := hk.exists_cons
  have hskip : skipBlanks (k.toList ++ x :: rest) = k.toList ++ x :: rest := by
    rw [hcons, List.cons_append, skipBlanks_bare hc]
  have hparts : scanParts (k.toList ++ x :: rest) = some ([k], skipBlanks (x :: rest)) := by
    rw [scanParts, hskip, scanSimpleKey_bare hk hx]
    dsimp only
    split
    · exact absurd ‹_› (hdot _)
    · rfl
  rw [scanKey, hparts]
  rfl

/-- A line with a key is not empty. -/
theorem lineEnd?_bare {c : Char} (hc : isBare c = true) (cs : List Char) : lineEnd? (c :: cs) = none := by
  have hcomment : skipComment (c :: cs) = c :: cs := by
    rw [skipComment]
    intro _ heq
    exact cons_ne_of_test hc rfl heq
  rw [lineEnd?, skipBlanks_bare hc, hcomment]
  dsimp only
  rw [newline?]
  · intro _ heq
    exact cons_ne_of_test hc rfl heq
  · intro _ heq
    exact cons_ne_of_test hc rfl heq

/-- The header of a table. -/
theorem readsAs_header (hk : IsBareKey k) : ReadsAs ('[' :: k.toList ++ [']', '\n']) [.table [k]] := by
  refine .of_readEntry (List.cons_ne_nil _ _) fun rest => ?_
  have happend : '[' :: k.toList ++ [']', '\n'] ++ rest =
      '[' :: (k.toList ++ ']' :: '\n' :: rest) := by
    simp
  have hkey : scanKey (k.toList ++ ']' :: '\n' :: rest) = some ([k], ']' :: '\n' :: rest) :=
    scanKey_bare hk rfl fun cs heq => absurd (List.cons.inj heq).1 (by decide)
  obtain ⟨c, cs, hcons, hc, -⟩ := hk.exists_cons
  rw [happend, readEntry, skipBlanks_of_ne_blank rfl]
  -- The bracket is a single one, as a bracket is no character of a bare key.
  split
  · rename_i heq
    rw [hcons] at heq
    exact absurd (List.cons.inj heq).2 (cons_ne_of_test hc rfl)
  · rename_i heq
    obtain rfl := (List.cons.inj heq).2
    rw [hkey]
    rfl
  · rename_i hne
    exact absurd rfl (hne _)

/-- A key and its value. -/
theorem readsAs_pair (hk : IsBareKey k) (hv : IsWritten cs v) :
    ReadsAs (k.toList ++ ' ' :: '=' :: ' ' :: cs ++ ['\n']) [.pair [k] v] := by
  refine .of_readEntry (by simp) fun rest => ?_
  have happend : k.toList ++ ' ' :: '=' :: ' ' :: cs ++ ['\n'] ++ rest =
      k.toList ++ ' ' :: '=' :: ' ' :: (cs ++ '\n' :: rest) := by
    simp
  have hkey : scanKey (k.toList ++ ' ' :: '=' :: ' ' :: (cs ++ '\n' :: rest)) =
      some ([k], '=' :: ' ' :: (cs ++ '\n' :: rest)) :=
    scanKey_bare hk rfl fun cs heq => absurd (List.cons.inj heq).1 (by decide)
  have hvalue : readValue (maxDepth - 1) (skipBlanks (' ' :: (cs ++ '\n' :: rest))) =
      some (v, '\n' :: rest) := hv _ rest
  have hpair : readPair (readValue (maxDepth - 1))
      (k.toList ++ ' ' :: '=' :: ' ' :: (cs ++ '\n' :: rest)) = some (([k], v), '\n' :: rest) := by
    rw [readPair, hkey]
    show (readValue (maxDepth - 1) (skipBlanks (' ' :: (cs ++ '\n' :: rest)))).bind _ = _
    rw [hvalue]
    rfl
  obtain ⟨c, cs, hcons, hc, -⟩ := hk.exists_cons
  rw [hcons, List.cons_append] at hpair
  rw [happend, hcons, List.cons_append, readEntry, skipBlanks_bare hc]
  split
  · exact absurd ‹_› (cons_ne_of_test hc rfl)
  · exact absurd ‹_› (cons_ne_of_test hc rfl)
  · rw [lineEnd?_bare hc, hpair]
    rfl

/-! ## Sections -/

/-- The lines of a section. -/
def Section.entries (s : Section) : List Entry :=
  .table [s.name] :: s.pairs.map fun p => .pair [p.1] p.2.toValue

theorem readsAs_of_showsPair {p : String × Scalar} (h : ShowsPair text p) :
    ReadsAs text.toList [.pair [p.1] p.2.toValue] := by
  obtain ⟨hkey, word, hword, rfl⟩ := h
  have hpair := readsAs_pair hkey (isWritten_of_spells hword)
  have hline : (Section.line p.1 word).toList = p.1.toList ++ ' ' :: '=' :: ' ' :: word.toList ++ ['\n'] := by
    simp [Section.line]
  rwa [hline]

theorem readsAs_of_showsPairs {lines : List String} {pairs : List (String × Scalar)}
    (h : List.Forall₂ ShowsPair lines pairs) :
    ReadsAs (String.join lines).toList (pairs.map fun p => .pair [p.1] p.2.toValue) := by
  rw [String.toList_join]
  induction h with
  | nil => exact .nil
  | cons hline _ ih => exact (readsAs_of_showsPair hline).append ih

theorem readsAs_of_showsSection {s : Section} (h : ShowsSection text s) :
    ReadsAs text.toList s.entries := by
  obtain ⟨hname, lines, hlines, rfl⟩ := h
  have hsection := (readsAs_header hname).append (readsAs_of_showsPairs hlines)
  have htext : (Section.headed s.name lines).toList =
      '[' :: s.name.toList ++ [']', '\n'] ++ (String.join lines).toList := by
    simp [Section.headed]
  rwa [htext]

/-! ## Tables -/

/-- The table of a section. -/
def Section.table (s : Section) : Table :=
  ⟨false, false, s.pairs.map fun p => (p.1, .value p.2.toValue)⟩

/-- The table of some sections. -/
def rootOf (sections : List Section) : Table :=
  ⟨false, false, sections.map fun s => (s.name, .table s.table)⟩

variable {sections more : List Section} {s : Section} {path : List String}

namespace Table

variable {entries : List (String × Item)} {x y : Item}

theorem lookup_of_notMem {β : Type} {entries : List (String × β)} (h : k ∉ entries.map (·.1)) :
    entries.lookup k = none := by
  rw [List.lookup_eq_none_iff]
  intro e he
  rw [bne_iff_ne]
  rintro rfl
  exact h (List.mem_map_of_mem he)

theorem setEntry_of_notMem (h : k ∉ entries.map (·.1)) :
    setEntry k x entries = entries ++ [(k, x)] := by
  induction entries with
  | nil => rfl
  | cons e rest ih =>
    obtain ⟨hne, hrest⟩ := not_or.mp (mt List.mem_cons.mpr h)
    rw [setEntry, if_neg (Ne.symm hne), ih hrest, List.cons_append]

theorem setEntry_concat (h : k ∉ entries.map (·.1)) :
    setEntry k x (entries ++ [(k, y)]) = entries ++ [(k, x)] := by
  induction entries with
  | nil => exact if_pos rfl
  | cons e rest ih =>
    obtain ⟨hne, hrest⟩ := not_or.mp (mt List.mem_cons.mpr h)
    rw [List.cons_append, setEntry, if_neg (Ne.symm hne), ih hrest, List.cons_append]

theorem lookup_concat {β : Type} {entries : List (String × β)} {b : β} (h : k ∉ entries.map (·.1)) :
    (entries ++ [(k, b)]).lookup k = some b := by
  rw [List.lookup_append, lookup_of_notMem h, Option.none_or, List.lookup_cons_self]

end Table

theorem keys_rootOf (sections : List Section) :
    (rootOf sections).entries.map (·.1) = sections.map (·.name) := by
  rw [rootOf, List.map_map]
  rfl

theorem keys_table (s : Section) : s.table.entries.map (·.1) = s.pairs.map (·.1) := by
  rw [Section.table, List.map_map]
  rfl

/-- Keys stand for the values that they are paired with. -/
theorem find?_table (s : Section) (k : String) :
    s.table.find? k = (s.pairs.lookup k).map Scalar.toValue := by
  obtain ⟨name, pairs⟩ := s
  show ((pairs.map fun p => (p.1, Item.value p.2.toValue)).lookup k).map Item.toValue = _
  induction pairs with
  | nil => rfl
  | cons p pairs ih =>
    obtain ⟨n, a⟩ := p
    rw [List.map_cons, Entries.lookup_cons, Entries.lookup_cons]
    split
    · rfl
    · exact ih

/-- Names stand for the sections that they head. -/
theorem find?_rootOf (sections : List Section) (name : String) :
    (rootOf sections).find? name = (sections.find? (·.name = name)).map fun s => .table s.table := by
  show ((sections.map fun s => (s.name, Item.table s.table)).lookup name).map Item.toValue = _
  induction sections with
  | nil => rfl
  | cons s sections ih =>
    rw [List.map_cons, Entries.lookup_cons, List.find?_cons]
    by_cases h : name = s.name
    · simp [h, Item.toValue]
    · simp [h, Ne.symm h, ih]

theorem rootOf_concat (sections : List Section) (s : Section) :
    rootOf (sections ++ [s]) =
      ⟨false, false, (rootOf sections).entries ++ [(s.name, .table s.table)]⟩ := by
  rw [rootOf, List.map_append]
  rfl

/-! ## Pages -/

theorem add_header (h : k ∉ sections.map (·.name)) (path : List String) :
    Page.add ⟨rootOf sections, path⟩ (.table [k]) = some ⟨rootOf (sections ++ [⟨k, []⟩]), [k]⟩ := by
  rw [← keys_rootOf] at h
  have hget : (rootOf sections).get? k = none := Table.lookup_of_notMem h
  have hset : (rootOf sections).set k (.table .empty) = rootOf (sections ++ [⟨k, []⟩]) := by
    rw [Table.set, Table.setEntry_of_notMem h, rootOf_concat]
    rfl
  have hopen : (rootOf sections).openTable [k] = some (rootOf (sections ++ [⟨k, []⟩])) := by
    simp [Table.openTable, Table.changeAt, hget, hset]
  rw [Page.add, hopen]
  rfl

theorem insertPair_table (hk : k ∉ s.pairs.map (·.1)) (a : Scalar) :
    s.table.insertPair [k] a.toValue = some (Section.table ⟨s.name, s.pairs ++ [(k, a)]⟩) := by
  rw [← keys_table] at hk
  have hget : s.table.get? k = none := Table.lookup_of_notMem hk
  have hset : s.table.set k (.value a.toValue) = Section.table ⟨s.name, s.pairs ++ [(k, a)]⟩ := by
    rw [Table.set, Table.setEntry_of_notMem hk, Section.table, Section.table, List.map_append]
    rfl
  have hopen : s.table.dotted = false := rfl
  simp [Table.insertPair, Table.changeAt, hopen, hget, hset]

/-- A pair goes to the section whose header came last. -/
theorem add_pair (hname : s.name ∉ sections.map (·.name)) (hk : k ∉ s.pairs.map (·.1)) (a : Scalar) :
    Page.add ⟨rootOf (sections ++ [s]), [s.name]⟩ (.pair [k] a.toValue) =
      some ⟨rootOf (sections ++ [⟨s.name, s.pairs ++ [(k, a)]⟩]), [s.name]⟩ := by
  rw [← keys_rootOf] at hname
  have hget : (rootOf (sections ++ [s])).get? s.name = some (.table s.table) := by
    rw [rootOf_concat]
    exact Table.lookup_concat hname
  have hset (t : Table) : (rootOf (sections ++ [s])).set s.name (.table t) =
      ⟨false, false, (rootOf sections).entries ++ [(s.name, .table t)]⟩ := by
    rw [rootOf_concat, Table.set, Table.setEntry_concat hname]
  have hchange : (rootOf (sections ++ [s])).changeAt false (Table.insertPair [k] a.toValue) [s.name] =
      some (rootOf (sections ++ [⟨s.name, s.pairs ++ [(k, a)]⟩])) := by
    rw [Table.changeAt, hget]
    dsimp only
    rw [Bool.false_and, if_neg Bool.false_ne_true, Table.changeAt, insertPair_table hk,
      Option.map_some, hset, rootOf_concat]
  rw [Page.add, hchange]
  rfl

theorem notMem_of_nodup_append {α : Type} {f : α → String} {xs ys : List α} {x : α}
    (h : ((xs ++ x :: ys).map f).Nodup) : f x ∉ xs.map f := by
  rw [List.map_append, List.map_cons] at h
  exact fun hmem => (List.nodup_append.mp h).2.2 _ hmem _ List.mem_cons_self rfl

/-- Pairs go to the section one by one. The induction is on those that are left, for any before them. -/
theorem foldlM_pairs (pairs : List (String × Scalar)) (hname : s.name ∉ sections.map (·.name))
    (h : ((s.pairs ++ pairs).map (·.1)).Nodup) :
    (pairs.map fun p => Entry.pair [p.1] p.2.toValue).foldlM Page.add
        ⟨rootOf (sections ++ [s]), [s.name]⟩ =
      some ⟨rootOf (sections ++ [⟨s.name, s.pairs ++ pairs⟩]), [s.name]⟩ := by
  induction pairs generalizing s with
  | nil => simp
  | cons p pairs ih =>
    have hk : p.1 ∉ s.pairs.map (·.1) := notMem_of_nodup_append h
    rw [List.append_cons s.pairs p pairs] at h ⊢
    rw [List.map_cons, List.foldlM_cons, add_pair hname hk]
    exact ih (s := ⟨s.name, s.pairs ++ [p]⟩) hname h

/-- The lines of a section add it to the sections before. -/
theorem foldlM_section (hname : s.name ∉ sections.map (·.name)) (h : (s.pairs.map (·.1)).Nodup)
    (path : List String) :
    s.entries.foldlM Page.add ⟨rootOf sections, path⟩ =
      some ⟨rootOf (sections ++ [s]), [s.name]⟩ := by
  rw [Section.entries, List.foldlM_cons, add_header hname]
  exact foldlM_pairs (s := ⟨s.name, []⟩) s.pairs hname h

/-- Lines of sections, a blank one between two. -/
def entriesOf (sections : List Section) : List Entry :=
  [Entry.nothing].intercalate (sections.map Section.entries)

theorem foldlM_entriesOf (sections : List Section) (hnames : ((sections ++ more).map (·.name)).Nodup)
    (hkeys : ∀ s ∈ more, (s.pairs.map (·.1)).Nodup) (path : List String) :
    ∃ path', (entriesOf more).foldlM Page.add ⟨rootOf sections, path⟩ =
      some ⟨rootOf (sections ++ more), path'⟩ := by
  induction more generalizing sections path with
  | nil => exact ⟨path, by rw [List.append_nil]; rfl⟩
  | cons s more ih =>
    obtain ⟨hs, hmore⟩ := List.forall_mem_cons.mp hkeys
    have hname : s.name ∉ sections.map (·.name) := notMem_of_nodup_append hnames
    rw [List.append_cons sections s more] at hnames ⊢
    have hsection := foldlM_section hname hs path
    obtain ⟨path', hrest⟩ := ih (sections ++ [s]) hnames hmore [s.name]
    cases more with
    | nil =>
      refine ⟨[s.name], ?_⟩
      rw [List.append_nil, ← hsection]
      simp [entriesOf]
    | cons s' more =>
      refine ⟨path', ?_⟩
      rw [← hrest]
      unfold entriesOf
      rw [List.map_cons, List.map_cons, List.intercalate_cons_cons, List.append_assoc,
        List.foldlM_append, hsection]
      rfl

theorem readsAs_intercalate {texts : List String} (h : List.Forall₂ ShowsSection texts sections) :
    ReadsAs ("\n".intercalate texts).toList (entriesOf sections) := by
  induction h with
  | nil => exact .nil
  | cons hs hrest ih =>
    have hsection := readsAs_of_showsSection hs
    cases hrest with
    | nil => simpa [entriesOf] using hsection
    | cons hs' hrest =>
      unfold entriesOf at ih ⊢
      rw [String.intercalate_cons_cons, List.map_cons, List.map_cons, List.intercalate_cons_cons,
        String.toList_append, String.toList_append]
      exact (hsection.append readsAs_newline).append ih

/-- A text of sections starts with a bracket, and so with no byte order mark. -/
theorem skipMark_of_shows (h : Shows text sections) : skipMark text.toList = text.toList := by
  obtain ⟨texts, htexts, rfl⟩ := h
  have hstart : ("\n".intercalate texts).toList = [] ∨
      ∃ cs, ("\n".intercalate texts).toList = '[' :: cs := by
    cases htexts with
    | nil => exact .inl rfl
    | @cons text s texts sections hs hrest =>
      obtain ⟨-, lines, -, rfl⟩ := hs
      refine .inr ?_
      cases hrest with
      | nil => simp [Section.headed]
      | cons _ _ => simp [Section.headed, String.intercalate_cons_cons]
  rcases hstart with hnil | ⟨cs, hcs⟩
  · rw [hnil]
    rfl
  · rw [hcs, skipMark]
    intro _ heq
    exact absurd (List.cons.inj heq).1 (by decide)

/-- A text of sections stands for their table. -/
theorem parse?_of_shows (h : Shows text sections) (hdistinct : Distinct sections) :
    parse? text = some (rootOf sections) := by
  obtain ⟨path, hfold⟩ := foldlM_entriesOf [] hdistinct.names hdistinct.keys []
  have hmark := skipMark_of_shows h
  obtain ⟨texts, htexts, rfl⟩ := h
  rw [parse?, hmark, (readsAs_intercalate htexts).readEntries_eq]
  show (List.foldlM Page.add ⟨rootOf [], []⟩ (entriesOf sections)).bind (fun page => some page.root) = _
  rw [hfold]
  rfl

end LosslessGo.Toml
