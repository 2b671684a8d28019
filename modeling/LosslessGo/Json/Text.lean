/-!
# Strings in JSON

A string is written in quotes. Quotes, backslashes and control characters are escaped, and so are
the characters that would end a script element or a line of script: less-than, greater-than,
ampersand and the two separators U+2028 and U+2029. All others are written as they are.
-/

namespace LosslessGo.Json

/-- The hexadecimal digit of a number below 16. -/
def hexDigit (n : Nat) : Char := "0123456789abcdef".toList.getD n '0'

/-- Four hexadecimal digits. -/
def hex4 (n : Nat) : String :=
  String.ofList [hexDigit (n / 4096 % 16), hexDigit (n / 256 % 16), hexDigit (n / 16 % 16),
    hexDigit (n % 16)]

/-- Whether a character is written by its number. -/
def isNumbered (c : Char) : Bool :=
  c.val < 0x20 || c == '<' || c == '>' || c == '&' || c.val == 0x2028 || c.val == 0x2029

/-- A character as it is written inside quotes. -/
def escape (c : Char) : String :=
  if c = '"' then "\\\""
  else if c = '\\' then "\\\\"
  else if c = '\n' then "\\n"
  else if c = '\r' then "\\r"
  else if c = '\t' then "\\t"
  else if isNumbered c then "\\u" ++ hex4 c.toNat
  else c.toString

/-- A string as a JSON string. -/
def quote (s : String) : String := "\"" ++ String.join (s.toList.map escape) ++ "\""

end LosslessGo.Json
