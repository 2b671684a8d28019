import LosslessGo.Text.Range

/-!
# Tokens

The leaves of a tree hold the source text as tokens of a few lexical kinds.
-/

namespace LosslessGo

/-- The lexical kind of a token. -/
inductive TokenKind where
  | keyword
  | string
  | other
  /-- A comment is kept apart from the tokens of the code. -/
  | comment
  /-- The end of the file, the one token without width. -/
  | endOfFile
  deriving DecidableEq, Inhabited, Repr

namespace TokenKind

/-- Every kind. -/
def all : List TokenKind := [keyword, string, other, comment, endOfFile]

/-- The name of a kind in documents. -/
def name : TokenKind → String
  | keyword => "KEYWORD"
  | string => "STRING_LITERAL"
  | other => "OTHER"
  | comment => "COMMENT"
  | endOfFile => "EOF"

/-- The kind of a name. -/
def ofName? (s : String) : Option TokenKind := all.find? (·.name == s)

/-- Whether tokens of the kind are tokens of the code: neither comments nor the end of the file. -/
def isListed : TokenKind → Bool
  | keyword | string | other => true
  | comment | endOfFile => false

end TokenKind

/-- A token: its text, where it stands and its kind. -/
structure Token where
  text : String
  range : TextRange
  kind : TokenKind
  deriving DecidableEq, Inhabited, Repr

end LosslessGo
