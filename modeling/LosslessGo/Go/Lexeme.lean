/-!
# Operators and keywords of Go

The tokens that a syntax tree records by position alone, because their spelling is fixed.
Operators come before keywords in the order of the type.
-/

namespace LosslessGo.Go

/-- An operator, delimiter or keyword. -/
inductive Lexeme where
  | add | sub | mul | quo | rem
  | and | or | xor | shl | shr | andNot
  | addAssign | subAssign | mulAssign | quoAssign | remAssign
  | andAssign | orAssign | xorAssign | shlAssign | shrAssign | andNotAssign
  | logicalAnd | logicalOr | arrow | inc | dec
  | equal | less | greater | assign | not
  | notEqual | lessEqual | greaterEqual | define | ellipsis
  | lparen | lbrack | lbrace | comma | period
  | rparen | rbrack | rbrace | semicolon | colon | tilde
  | breakWord | caseWord | chanWord | constWord | continueWord
  | defaultWord | deferWord | elseWord | fallthroughWord | forWord
  | funcWord | goWord | gotoWord | ifWord | importWord
  | interfaceWord | mapWord | packageWord | rangeWord | returnWord
  | selectWord | structWord | switchWord | typeWord | varWord
  deriving DecidableEq, Inhabited, Ord, Repr

namespace Lexeme

/-- The spelling. -/
def text : Lexeme → String
  | add => "+" | sub => "-" | mul => "*" | quo => "/" | rem => "%"
  | and => "&" | or => "|" | xor => "^" | shl => "<<" | shr => ">>" | andNot => "&^"
  | addAssign => "+=" | subAssign => "-=" | mulAssign => "*=" | quoAssign => "/="
  | remAssign => "%=" | andAssign => "&=" | orAssign => "|=" | xorAssign => "^="
  | shlAssign => "<<=" | shrAssign => ">>=" | andNotAssign => "&^="
  | logicalAnd => "&&" | logicalOr => "||" | arrow => "<-" | inc => "++" | dec => "--"
  | equal => "==" | less => "<" | greater => ">" | assign => "=" | not => "!"
  | notEqual => "!=" | lessEqual => "<=" | greaterEqual => ">=" | define => ":="
  | ellipsis => "..."
  | lparen => "(" | lbrack => "[" | lbrace => "\x7b" | comma => "," | period => "."
  | rparen => ")" | rbrack => "]" | rbrace => "\x7d" | semicolon => ";" | colon => ":"
  | tilde => "~"
  | breakWord => "break" | caseWord => "case" | chanWord => "chan" | constWord => "const"
  | continueWord => "continue" | defaultWord => "default" | deferWord => "defer"
  | elseWord => "else" | fallthroughWord => "fallthrough" | forWord => "for"
  | funcWord => "func" | goWord => "go" | gotoWord => "goto" | ifWord => "if"
  | importWord => "import" | interfaceWord => "interface" | mapWord => "map"
  | packageWord => "package" | rangeWord => "range" | returnWord => "return"
  | selectWord => "select" | structWord => "struct" | switchWord => "switch"
  | typeWord => "type" | varWord => "var"

/-- Every operator and keyword, in order. -/
def all : List Lexeme :=
  [add, sub, mul, quo, rem, and, or, xor, shl, shr, andNot,
    addAssign, subAssign, mulAssign, quoAssign, remAssign,
    andAssign, orAssign, xorAssign, shlAssign, shrAssign, andNotAssign,
    logicalAnd, logicalOr, arrow, inc, dec, equal, less, greater, assign, not,
    notEqual, lessEqual, greaterEqual, define, ellipsis,
    lparen, lbrack, lbrace, comma, period, rparen, rbrack, rbrace, semicolon, colon, tilde,
    breakWord, caseWord, chanWord, constWord, continueWord, defaultWord, deferWord, elseWord,
    fallthroughWord, forWord, funcWord, goWord, gotoWord, ifWord, importWord, interfaceWord,
    mapWord, packageWord, rangeWord, returnWord, selectWord, structWord, switchWord, typeWord,
    varWord]

theorem mem_all (w : Lexeme) : w ∈ all := by cases w <;> decide

/-- Whether the lexeme is a keyword. -/
def isKeyword (w : Lexeme) : Bool := (compare breakWord w).isLE

/-- The number of bytes of the spelling. -/
def length (w : Lexeme) : Nat := w.text.utf8ByteSize

/-- The lexeme of a spelling. -/
def ofText? (s : String) : Option Lexeme := all.find? (·.text == s)

end Lexeme

end LosslessGo.Go
