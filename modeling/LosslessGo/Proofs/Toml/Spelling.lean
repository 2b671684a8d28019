import LosslessGo.Proofs.Json.Values
import LosslessGo.Toml.Scan
import LosslessGo.Toml.Section

/-!
# How sections are spelled

What TOML says of the texts that consist of sections, whichever library reads or writes them.

* `Spells`: the words that stand for a value. A number has its decimal digits, a string stands in double
  quotes, where `Quotes` says how its characters do.
* `Shows`: the texts that stand for some sections.
* `Scalar.spells_text`, `shows_sectionsText`: values and sections are spelled by their texts, where strings
  are written by `plainQuote`.
-/

namespace LosslessGo.Toml

variable {cs : List Char} {s : String} {n : Nat} {a : Scalar} {sections : List Section}

/-! ## Words -/

/-- A character that stands in quotes as it is, or is a tab. -/
structure IsPlain (c : Char) : Prop where
  printable : isPrintable c = true
  ne_quote : c ≠ '"'
  ne_backslash : c ≠ '\\'

/-- What double quotes hold for some characters. -/
inductive Quotes : List Char → List Char → Prop where
  | nil : Quotes [] []
  /-- A plain character stands for itself. -/
  | plain {c : Char} {body cs : List Char} : IsPlain c → Quotes body cs → Quotes (c :: body) (c :: cs)
  /-- A backslash and a `t` stand for a tab. -/
  | tab {body cs : List Char} : Quotes body cs → Quotes ('\\' :: 't' :: body) ('\t' :: cs)

/-- Decimal digits of which the first is a zero only if it is the only one. -/
structure IsDecimal (ds : List Char) : Prop where
  ne_nil : ds ≠ []
  digits : ∀ c ∈ ds, c.isDigit = true
  eq_zero : ds.head? = some '0' → ds = ['0']

/-- The characters of a word for a value. -/
inductive Spells : List Char → Scalar → Prop where
  | true : Spells ['t', 'r', 'u', 'e'] (.bool true)
  | false : Spells ['f', 'a', 'l', 's', 'e'] (.bool false)
  /-- The digits of a number that is not past the greatest integer. -/
  | nat {ds : List Char} : IsDecimal ds → fits (Nat.ofDigitChars 10 ds 0) = true →
    Spells ds (.nat (Nat.ofDigitChars 10 ds 0))
  | str {body cs : List Char} : Quotes body cs → Spells ('"' :: body ++ ['"']) (.str (String.ofList cs))

/-! ## Sections -/

/-- A key that is written without quotes. -/
structure IsBareKey (k : String) : Prop where
  ne_nil : k.toList ≠ []
  bare : k.toList.all isBare = true

/-- A line for a key and its value. -/
def ShowsPair (line : String) (p : String × Scalar) : Prop :=
  IsBareKey p.1 ∧ ∃ word, Spells word.toList p.2 ∧ line = Section.line p.1 word

/-- The header and the lines of a section. -/
def ShowsSection (text : String) (s : Section) : Prop :=
  IsBareKey s.name ∧ ∃ lines, List.Forall₂ ShowsPair lines s.pairs ∧ text = Section.headed s.name lines

/-- A text of some sections, an empty line between two. -/
def Shows (text : String) (sections : List Section) : Prop :=
  ∃ texts, List.Forall₂ ShowsSection texts sections ∧ text = "\n".intercalate texts

/-- No two sections have one name, and no two keys of a section are the same. -/
structure Distinct (sections : List Section) : Prop where
  names : (sections.map (·.name)).Nodup
  keys : ∀ s ∈ sections, (s.pairs.map (·.1)).Nodup

/-- The value of a key in the section of a name. -/
def valueIn? (sections : List Section) (name key : String) : Option Scalar :=
  (sections.find? (·.name = name)).bind (·.pairs.lookup key)

/-! ## Plain texts -/

/-- What stands between the quotes of a string of plain characters. -/
def contentOf (cs : List Char) : List Char := cs.flatMap fun c => if c = '\t' then ['\\', 't'] else [c]

/-- A string in double quotes, with tabs as `\t`. -/
def plainQuote (s : String) : String := "\"" ++ String.ofList (contentOf s.toList) ++ "\""

/-- A value that can be written in this way. -/
def Scalar.Writable : Scalar → Prop
  | .bool _ => True
  | .nat n => fits n = true
  | .str s => ∀ c ∈ s.toList, IsPlain c

theorem contentOf_cons (c : Char) (cs : List Char) :
    contentOf (c :: cs) = (if c = '\t' then ['\\', 't'] else [c]) ++ contentOf cs :=
  List.flatMap_cons

theorem quotes_contentOf (h : ∀ c ∈ cs, IsPlain c) : Quotes (contentOf cs) cs := by
  induction cs with
  | nil => exact .nil
  | cons c cs ih =>
    obtain ⟨hc, hcs⟩ := List.forall_mem_cons.mp h
    rw [contentOf_cons]
    split
    · rename_i htab
      subst htab
      exact .tab (ih hcs)
    · exact .plain hc (ih hcs)

theorem isDecimal_toDigits (n : Nat) : IsDecimal (Nat.toDigits 10 n) where
  ne_nil := Nat.toDigits_ne_nil
  digits _ := Nat.isDigit_of_mem_toDigits (by decide) (by decide)
  eq_zero := Json.head?_toDigits

theorem spells_nat (h : fits n = true) : Spells (toString n).toList (.nat n) := by
  have hlist : (toString n).toList = Nat.toDigits 10 n := Nat.toList_repr
  have hvalue : Nat.ofDigitChars 10 (Nat.toDigits 10 n) 0 = n := Nat.ofDigitChars_ten_toDigits
  have hspells := Spells.nat (isDecimal_toDigits n) (by rwa [hvalue])
  rwa [hvalue, ← hlist] at hspells

theorem spells_plainQuote (h : ∀ c ∈ s.toList, IsPlain c) : Spells (plainQuote s).toList (.str s) := by
  have hlist : (plainQuote s).toList = '"' :: contentOf s.toList ++ ['"'] := by
    simp [plainQuote]
  have hspells := Spells.str (quotes_contentOf h)
  rwa [String.ofList_toList, ← hlist] at hspells

theorem Scalar.spells_text (h : a.Writable) : Spells (a.text plainQuote).toList a := by
  cases a with
  | bool b =>
    cases b with
    | false => exact .false
    | true => exact .true
  | nat n => exact spells_nat h
  | str s => exact spells_plainQuote h

/-- Sections are shown by their plain text. -/
theorem shows_sectionsText (hnames : ∀ s ∈ sections, IsBareKey s.name)
    (hpairs : ∀ s ∈ sections, ∀ p ∈ s.pairs, IsBareKey p.1 ∧ p.2.Writable) :
    Shows (sectionsText plainQuote sections) sections := by
  refine ⟨_, List.forall₂_map_left_iff.mpr (List.forall₂_same.mpr fun s hs => ?_), rfl⟩
  refine ⟨hnames s hs, _, List.forall₂_map_left_iff.mpr (List.forall₂_same.mpr fun p hp => ?_), rfl⟩
  obtain ⟨hkey, hwritable⟩ := hpairs s hs p hp
  exact ⟨hkey, _, p.2.spells_text hwritable, rfl⟩

end LosslessGo.Toml
