/-!
# TOML words

The words of a TOML text: blanks, strings, keys, numbers and dates. A scanner takes a word off a
list of characters and gives what it stands for, with the characters that follow.

* `scanString`: the four forms of strings.
* `scanKey`: a dotted key.
* `scanInteger?`, `scanFloat?`, `scanDateTime?`: numbers and dates.
* `lineEnd?`: the end of a line, a comment before it.
-/

namespace LosslessGo.Toml

/-- Takes a word off a text. -/
abbrev Scan (α : Type) := List Char → Option (α × List Char)

/-! ## Blanks and comments -/

/-- Blanks within a line. -/
def isBlank (c : Char) : Bool := c == ' ' || c == '\t'

/-- Whether a character may stand in comments and strings as it is: no control character but the
tab. -/
def isPrintable (c : Char) : Bool := c == '\t' || (0x20 ≤ c.val && c.val != 0x7f)

/-- The text without the blanks at its start. -/
def skipBlanks (cs : List Char) : List Char := cs.dropWhile isBlank

/-- The text after one line end. -/
def newline? : List Char → Option (List Char)
  | '\n' :: cs => some cs
  | '\r' :: '\n' :: cs => some cs
  | _ => none

/-- The text after blanks, line ends and comments. A comment runs up to a line end; where it does
not, the text from what breaks it off. -/
def skipTrivia (inComment : Bool) : List Char → List Char
  | [] => []
  | '\n' :: cs => skipTrivia false cs
  | '\r' :: '\n' :: cs => skipTrivia false cs
  | c :: cs =>
    if inComment then if isPrintable c then skipTrivia true cs else c :: cs
    else if isBlank c then skipTrivia false cs
    else if c = '#' then skipTrivia true cs
    else c :: cs

/-- The text without a comment at its start. -/
def skipComment : List Char → List Char
  | '#' :: cs => cs.dropWhile isPrintable
  | cs => cs

/-- The text after the end of a line, which may hold blanks and a comment. -/
def lineEnd? (cs : List Char) : Option (List Char) :=
  match skipComment (skipBlanks cs) with
  | [] => some []
  | rest => newline? rest

/-! ## Strings -/

/-- The value of a hexadecimal digit. -/
def hexValue? (c : Char) : Option Nat :=
  if '0' ≤ c ∧ c ≤ '9' then some (c.toNat - '0'.toNat)
  else if 'a' ≤ c ∧ c ≤ 'f' then some (c.toNat - 'a'.toNat + 10)
  else if 'A' ≤ c ∧ c ≤ 'F' then some (c.toNat - 'A'.toNat + 10)
  else none

/-- The character whose number the digits give. -/
def charOfHex? (digits : List Char) : Option Char := do
  let ds ← digits.mapM hexValue?
  let n := ds.foldl (fun n d => 16 * n + d) 0
  if n.isValidChar then some (Char.ofNat n) else none

/-- The character that stands for itself or another behind a backslash. -/
def shortEscape? : Char → Option Char
  | 'b' => some '\x08'
  | 't' => some '\t'
  | 'n' => some '\n'
  | 'f' => some '\x0c'
  | 'r' => some '\r'
  | '"' => some '"'
  | '\\' => some '\\'
  | _ => none

/-- Puts a character before what was scanned. -/
def prepend (c : Char) (r : Option (List Char × List Char)) : Option (List Char × List Char) :=
  r.map fun (cs, rest) => (c :: cs, rest)

/-- A string in quotes, after the opening one. -/
def basicBody : Scan (List Char)
  | [] => none
  | '"' :: cs => some ([], cs)
  | '\\' :: 'u' :: a :: b :: c :: d :: cs =>
    (charOfHex? [a, b, c, d]).bind fun x => prepend x (basicBody cs)
  | '\\' :: 'U' :: a :: b :: c :: d :: e :: f :: g :: h :: cs =>
    (charOfHex? [a, b, c, d, e, f, g, h]).bind fun x => prepend x (basicBody cs)
  | '\\' :: c :: cs => (shortEscape? c).bind fun x => prepend x (basicBody cs)
  | c :: cs => if isPrintable c then prepend c (basicBody cs) else none

/-- Three or more closing quotes: up to two of them belong to the string. -/
def closing (quote : Char) : List Char → List Char × List Char
  | a :: b :: cs =>
    if a = quote then if b = quote then ([quote, quote], cs) else ([quote], b :: cs)
    else ([], a :: b :: cs)
  | [a] => if a = quote then ([quote], []) else ([], [a])
  | [] => ([], [])

/-- Where a string over several lines stands: in text, behind a backslash at the end of a line, or
in the blanks after that line. -/
inductive LineState where
  | text
  | lineEnding
  | lineStart
  deriving DecidableEq

/-- A string in three quotes, after the opening ones. -/
def multiBasicBody (s : LineState) : Scan (List Char)
  | [] => none
  | '\n' :: cs =>
    if s = .text then prepend '\n' (multiBasicBody .text cs) else multiBasicBody .lineStart cs
  | '\r' :: '\n' :: cs =>
    if s = .text then prepend '\n' (multiBasicBody .text cs) else multiBasicBody .lineStart cs
  | c :: cs =>
    if s ≠ .text ∧ isBlank c then multiBasicBody s cs
    else if s = .lineEnding then none
    else
      match c, cs with
      | '"', '"' :: '"' :: rest => some (closing '"' rest)
      | '\\', 'u' :: a :: b :: c :: d :: rest =>
        (charOfHex? [a, b, c, d]).bind fun x => prepend x (multiBasicBody .text rest)
      | '\\', 'U' :: a :: b :: c :: d :: e :: f :: g :: h :: rest =>
        (charOfHex? [a, b, c, d, e, f, g, h]).bind fun x => prepend x (multiBasicBody .text rest)
      | '\\', e :: rest =>
        if isBlank e ∨ e = '\n' ∨ e = '\r' then multiBasicBody .lineEnding (e :: rest)
        else (shortEscape? e).bind fun x => prepend x (multiBasicBody .text rest)
      | '\\', [] => none
      | c, cs => if isPrintable c then prepend c (multiBasicBody .text cs) else none

/-- A string in single quotes, after the opening one. -/
def literalBody : Scan (List Char)
  | [] => none
  | c :: cs =>
    if c = '\'' then some ([], cs)
    else if isPrintable c then prepend c (literalBody cs) else none

/-- A string in three single quotes, after the opening ones. -/
def multiLiteralBody : Scan (List Char)
  | [] => none
  | '\'' :: '\'' :: '\'' :: cs => some (closing '\'' cs)
  | '\n' :: cs => prepend '\n' (multiLiteralBody cs)
  | '\r' :: '\n' :: cs => prepend '\n' (multiLiteralBody cs)
  | c :: cs => if isPrintable c then prepend c (multiLiteralBody cs) else none

/-- What was scanned, as a string. -/
def asString (r : Option (List Char × List Char)) : Option (String × List Char) :=
  r.map fun (cs, rest) => (String.ofList cs, rest)

/-- A string over several lines starts after a line end that follows its quotes. -/
def skipNewline (cs : List Char) : List Char := (newline? cs).getD cs

/-- A string. -/
def scanString : Scan String
  | '"' :: '"' :: '"' :: cs => asString (multiBasicBody .text (skipNewline cs))
  | '"' :: cs => asString (basicBody cs)
  | '\'' :: '\'' :: '\'' :: cs => asString (multiLiteralBody (skipNewline cs))
  | '\'' :: cs => asString (literalBody cs)
  | _ => none

/-! ## Keys -/

/-- Whether a key may hold a character without quotes. -/
def isBare (c : Char) : Bool := c.isAlphanum || c == '_' || c == '-'

/-- One part of a key. -/
def scanSimpleKey : Scan String
  | '"' :: cs => asString (basicBody cs)
  | '\'' :: cs => asString (literalBody cs)
  | cs =>
    if (cs.takeWhile isBare).isEmpty then none
    else some (String.ofList (cs.takeWhile isBare), cs.dropWhile isBare)

/-- The parts of a key, with blanks around each. -/
def scanParts (cs : List Char) : Option (List String × List Char) :=
  match scanSimpleKey (skipBlanks cs) with
  | none => none
  | some (k, rest) =>
    match skipBlanks rest with
    | '.' :: rest =>
      if rest.length < cs.length then (scanParts rest).map fun (ks, rest) => (k :: ks, rest)
      else none
    | rest => some ([k], rest)
termination_by cs.length

/-- The number of levels, of values or of keys, at which reading stops. -/
def maxDepth : Nat := 80

/-- A dotted key. -/
def scanKey (cs : List Char) : Option (List String × List Char) :=
  (scanParts cs).filter fun (ks, _) => ks.length < maxDepth

/-! ## Numbers -/

/-- Digits, with single underscores between them. -/
def digitTail (ok : Char → Bool) : List Char → List Char × List Char
  | '_' :: c :: cs =>
    if ok c then
      let (ds, rest) := digitTail ok cs
      (c :: ds, rest)
    else ([], '_' :: c :: cs)
  | c :: cs =>
    if ok c then
      let (ds, rest) := digitTail ok cs
      (c :: ds, rest)
    else ([], c :: cs)
  | [] => ([], [])

/-- At least one digit, with single underscores between them. -/
def scanDigits (ok : Char → Bool) : Scan (List Char)
  | [] => none
  | c :: cs =>
    if ok c then
      let (ds, rest) := digitTail ok cs
      some (c :: ds, rest)
    else none

/-- The number that digits give. -/
def numberOf (base : Nat) (digits : List Char) : Nat :=
  digits.foldl (fun n c => base * n + (hexValue? c).getD 0) 0

/-- A sign: whether it is a minus. -/
def scanSign : List Char → Bool × List Char
  | '+' :: cs => (false, cs)
  | '-' :: cs => (true, cs)
  | cs => (false, cs)

/-- A decimal number without leading zeros. -/
def scanDecimal : Scan (List Char)
  | '0' :: cs => some (['0'], cs)
  | cs => scanDigits Char.isDigit cs

/-- Whether a number fits the 64 bits of an integer. -/
def fits (n : Int) : Bool := -9223372036854775808 ≤ n && n ≤ 9223372036854775807

/-- An unsigned integer of a base. -/
def scanBased (base : Nat) (cs : List Char) : Option (Int × List Char) :=
  (scanDigits (fun c => (hexValue? c).any (· < base)) cs).bind fun (ds, rest) =>
    if fits (numberOf base ds) then some ((numberOf base ds : Int), rest) else none

/-- An integer. -/
def scanInteger? : Scan Int
  | '0' :: 'x' :: cs => scanBased 16 cs
  | '0' :: 'o' :: cs => scanBased 8 cs
  | '0' :: 'b' :: cs => scanBased 2 cs
  | cs =>
    let (negative, rest) := scanSign cs
    (scanDecimal rest).bind fun (ds, rest) =>
      let n : Int := if negative then -(numberOf 10 ds : Int) else numberOf 10 ds
      if fits n then some (n, rest) else none

/-- Digits behind a point. -/
def scanFraction : Scan (List Char)
  | '.' :: cs => scanDigits Char.isDigit cs
  | _ => none

/-- An exponent. -/
def scanExponent : Scan Int
  | c :: cs =>
    if c = 'e' ∨ c = 'E' then
      let (negative, rest) := scanSign cs
      (scanDigits Char.isDigit rest).map fun (ds, rest) =>
        (if negative then -(numberOf 10 ds : Int) else numberOf 10 ds, rest)
    else none
  | [] => none

/-- Whether `n · 10 ^ e` is past every floating-point number, rounding included. -/
def overflows (n : Nat) (e : Int) : Bool :=
  let bound := Nat.pow 2 1024 - Nat.pow 2 970
  if n = 0 then false
  else if 310 < (n.log2 : Int) / 4 + e then true
  else if e < -(n.log2 : Int) then false
  else if 0 ≤ e then bound ≤ n * Nat.pow 10 e.toNat
  else bound * Nat.pow 10 (-e).toNat ≤ n

/-- A floating-point number. A positive one may not be past the greatest. -/
def scanFloat? (cs : List Char) : Option (Unit × List Char) :=
  let (negative, rest) := scanSign cs
  match rest with
  | 'i' :: 'n' :: 'f' :: rest => some ((), rest)
  | 'n' :: 'a' :: 'n' :: rest => some ((), rest)
  | _ =>
    (scanDecimal rest).bind fun (whole, rest) =>
      let (fraction, afterFraction) := (scanFraction rest).getD ([], rest)
      let exponent := scanExponent afterFraction
      let (e, after) := exponent.getD (0, afterFraction)
      if fraction.isEmpty ∧ exponent.isNone then none
      else if !negative ∧ overflows (numberOf 10 (whole ++ fraction)) (e - fraction.length) then none
      else some ((), after)

/-! ## Dates -/

/-- A number of exactly `count` digits within bounds. -/
def scanFixed (count low high : Nat) (cs : List Char) : Option (Nat × List Char) :=
  let ds := cs.take count
  if ds.length = count ∧ ds.all Char.isDigit ∧ low ≤ numberOf 10 ds ∧ numberOf 10 ds ≤ high then
    some (numberOf 10 ds, cs.drop count)
  else none

/-- The text after a mark. -/
def after? (mark : Char) : List Char → Option (List Char)
  | c :: cs => if c = mark then some cs else none
  | [] => none

/-- The number of days of a month. -/
def daysIn (year month : Nat) : Nat :=
  if month = 2 then
    if year % 4 = 0 ∧ (year % 100 ≠ 0 ∨ year % 400 = 0) then 29 else 28
  else if month = 4 ∨ month = 6 ∨ month = 9 ∨ month = 11 then 30
  else 31

/-- The text after a date. -/
def date? (cs : List Char) : Option (List Char) := do
  let (year, cs) ← scanFixed 4 0 9999 cs
  let (month, cs) ← scanFixed 2 1 12 (← after? '-' cs)
  let (_, cs) ← scanFixed 2 1 (daysIn year month) (← after? '-' cs)
  return cs

/-- The text after a time of day; a leap second is admitted. -/
def time? (cs : List Char) : Option (List Char) := do
  let (_, cs) ← scanFixed 2 0 23 cs
  let (_, cs) ← scanFixed 2 0 59 (← after? ':' cs)
  let (_, cs) ← scanFixed 2 0 60 (← after? ':' cs)
  match cs with
  | '.' :: c :: rest => if c.isDigit then return rest.dropWhile Char.isDigit else return cs
  | _ => return cs

/-- The text after an offset from universal time. -/
def offset? (cs : List Char) : Option (List Char) :=
  match cs with
  | c :: rest =>
    if c = 'Z' ∨ c = 'z' then some rest
    else if c = '+' ∨ c = '-' then do
      let (_, rest) ← scanFixed 2 0 23 rest
      let (_, rest) ← scanFixed 2 0 59 (← after? ':' rest)
      return rest
    else none
  | [] => none

/-- The text after the time of a date, where one follows. -/
def timeOfDate (cs : List Char) : List Char :=
  match cs with
  | c :: rest =>
    if c = 'T' ∨ c = 't' ∨ c = ' ' then
      match time? rest with
      | some rest => (offset? rest).getD rest
      | none => cs
    else cs
  | [] => []

/-- A date, a time of day, or both. -/
def scanDateTime? (cs : List Char) : Option (Unit × List Char) :=
  ((date? cs).map fun rest => ((), timeOfDate rest)).or ((time? cs).map fun rest => ((), rest))

end LosslessGo.Toml
