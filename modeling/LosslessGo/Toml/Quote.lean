import LosslessGo.Json.Text

/-!
# Strings in TOML

A string is written in quotes. Where the quotes would need escapes, and single or triple quotes
would not, it is written in those.
-/

namespace LosslessGo.Toml

/-- The greatest number of times that a character stands in a row, after `run` times before. -/
def longestRun (c : Char) (run : Nat) : List Char → Nat
  | [] => run
  | x :: xs => if x = c then longestRun c (run + 1) xs else max run (longestRun c 0 xs)

/-- Whether a character can only be written as an escape. -/
def isControl (c : Char) : Bool := c != '\t' && c != '\n' && (c.val < 0x20 || c.val == 0x7f)

/-- Four hexadecimal digits, in capitals. -/
def hexText (n : Nat) : String := (Json.hex4 n).map Char.toUpper

/-- The characters of a string between quotes, of which up to `limit` in a row are not escaped
after `run` before. Line ends are kept where `limit` is not 0. -/
def quoted (limit run : Nat) : List Char → String
  | [] => ""
  | c :: cs =>
    if c = '"' then
      if run < limit then "\"" ++ quoted limit (run + 1) cs else "\\\"" ++ quoted limit 0 cs
    else
      let text :=
        if c = '\x08' then "\\b"
        else if c = '\t' then "\\t"
        else if c = '\n' then if limit = 0 then "\\n" else "\n"
        else if c = '\x0c' then "\\f"
        else if c = '\r' then "\\r"
        else if c = '\\' then "\\\\"
        else if isControl c then "\\u" ++ hexText c.toNat
        else c.toString
      text ++ quoted limit 0 cs

/-- A string in its plainest form. -/
def quote (s : String) : String :=
  let cs := s.toList
  let controls := cs.any isControl
  let escapes := cs.contains '\\'
  let lines := cs.contains '\n'
  let singles := longestRun '\'' 0 cs
  let doubles := longestRun '"' 0 cs
  let lead := if lines then "\n" else ""
  let basic := "\"" ++ quoted 0 0 cs ++ "\""
  let multiBasic := "\"\"\"" ++ lead ++ quoted 2 0 cs ++ "\"\"\""
  if !controls && !escapes && doubles == 0 && !lines then basic
  else if !controls && singles == 0 && !lines then "'" ++ s ++ "'"
  else if !controls && !escapes && doubles ≤ 2 then multiBasic
  else if !controls && singles ≤ 2 then "'''" ++ lead ++ s ++ "'''"
  else if lines then multiBasic
  else basic

end LosslessGo.Toml
