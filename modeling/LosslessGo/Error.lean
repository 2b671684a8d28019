import LosslessGo.Text.Location

/-!
# What can go wrong

* `ConvertError`: the syntax tree and the source text of a file disagree.
* `Fault`: there is no document, by an error or by a panic.
* `InputError`: a file does not parse, or a batch is not framed as it should be.
* `ConfigError`: a configuration cannot be read or is not admitted.
* `PipelineError`: any of these, or no worker pool.

Each error has a message and a code; its diagnostic is both together. A panic has neither: nothing is handed
back, and the program ends.
-/

namespace LosslessGo

/-- A diagnostic: the code in brackets, then the message. -/
def diagnostic (code message : String) : String := s!"[{code}] {message}"

/-- The syntax tree and the source text disagree. -/
inductive ConvertError where
  /-- A token reaches past the source or into a character. -/
  | invalidToken (location : Location)
  /-- A position lies past the source. -/
  | invalidOffset (location : Location)
  /-- A token is empty. -/
  | emptyToken (location : Location)
  /-- The source shows another text than the token has. -/
  | tokenValue (actual expected : String) (location : Location)
  /-- Source text between two tokens that no token accounts for. -/
  | missingToken (text : String) (location : Location)
  /-- A token starts before the end of its predecessor. -/
  | tokenSequence (location : Location)
  /-- The tree reaches past the source. -/
  | unexpectedRoot (location : Location)
  /-- A comment is neither a line comment nor a block comment. -/
  | comment (text : String)
  deriving DecidableEq, Repr

namespace ConvertError

def message : ConvertError → String
  | invalidToken l => "Invalid token" ++ l.text
  | invalidOffset l => "Invalid offset" ++ l.text
  | emptyToken l => "Invalid empty token" ++ l.text
  | tokenValue actual expected l =>
    "Invalid token value '" ++ actual ++ "' instead of '" ++ expected ++ "'" ++ l.text
  | missingToken t l => "Invalid missing token '" ++ t ++ "'" ++ l.text
  | tokenSequence l => "Invalid token sequence" ++ l.text
  | unexpectedRoot l => "Unexpected compilation unit" ++ l.text
  | comment t => "Unknown comment kind: " ++ t

def code : ConvertError → String
  | invalidToken _ | invalidOffset _ => "POSITION_ERROR"
  | tokenValue .. | missingToken .. => "TOKEN_MISMATCH"
  | emptyToken _ | tokenSequence _ | unexpectedRoot _ | comment _ => "CONVERT_ERROR"

/-- Where the error was found, where that is known. -/
def location? : ConvertError → Option Location
  | invalidToken l | invalidOffset l | emptyToken l | tokenValue _ _ l | missingToken _ l
  | tokenSequence l | unexpectedRoot l => some l
  | comment _ => none

end ConvertError

/-- Why there is no document. -/
inductive Fault where
  /-- An error that is handed back. -/
  | error (e : ConvertError)
  /-- A text was to be cut inside of a character, and the whole program ends. -/
  | panic
  deriving DecidableEq, Repr

/-- The input cannot be taken in. -/
inductive InputError where
  /-- The parser rejected the file; the message is the parser's. -/
  | parse (file message : String)
  /-- A batch ends inside a frame. -/
  | truncatedFrame (offset needed available : Nat)
  /-- A batch states a negative length. -/
  | negativeLength (offset : Nat) (length : Int)
  /-- A batch entry is not UTF-8. -/
  | invalidUtf8 (offset : Nat)
  deriving DecidableEq, Repr

namespace InputError

def message : InputError → String
  | parse _ m => m
  | truncatedFrame offset needed available =>
    s!"Truncated batch frame at byte {offset}: need {needed} bytes, {available} available"
  | negativeLength offset length => s!"Negative length {length} in batch frame at byte {offset}"
  | invalidUtf8 offset => s!"Batch entry at byte {offset} is not valid UTF-8"

def code : InputError → String
  | parse .. => "PARSE_ERROR"
  | truncatedFrame .. | negativeLength .. | invalidUtf8 _ => "INPUT_ERROR"

end InputError

/-- A configuration cannot be used. -/
inductive ConfigError where
  | fileNotFound (path : String)
  | parse (path message : String)
  | validationFailed (field message : String)
  | io (path message : String)
  deriving DecidableEq, Repr

namespace ConfigError

def message : ConfigError → String
  | fileNotFound path => "Config file not found: " ++ path
  | parse path m => "Config parse error in " ++ path ++ ": " ++ m
  | validationFailed field m => "Config validation failed for " ++ field ++ ": " ++ m
  | io path m => "Could not read config file " ++ path ++ ": " ++ m

def code (_ : ConfigError) : String := "CONFIG_ERROR"

end ConfigError

/-- Anything that can go wrong in a batch. -/
inductive PipelineError where
  | input (e : InputError)
  | convert (e : ConvertError)
  | config (e : ConfigError)
  | threadPool (message : String)
  deriving DecidableEq, Repr

namespace PipelineError

def message : PipelineError → String
  | input e => "Input error: " ++ e.message
  | convert e => "Conversion error: " ++ e.message
  | config e => "Configuration error: " ++ e.message
  | threadPool m => "Worker pool could not be built: " ++ m

def code : PipelineError → String
  | input e => e.code
  | convert e => e.code
  | config e => e.code
  | threadPool _ => "PIPELINE_ERROR"

end PipelineError

end LosslessGo
