import LosslessGo.Go.Lexeme

/-!
# Names of operators

The names under which operators are known across languages. An operator without a name is
converted without a construct of its own.
-/

namespace LosslessGo.Go.Lexeme

/-- The name of an operator before its operand. -/
def unaryName? : Lexeme → Option String
  | add => some "PLUS"
  | sub => some "MINUS"
  | not => some "NEGATE"
  | and => some "ADDRESS_OF"
  | arrow => some "ARROW"
  | xor => some "BITWISE_COMPLEMENT"
  | _ => none

/-- The name of an operator between its operands. -/
def binaryName? : Lexeme → Option String
  | add => some "PLUS"
  | sub => some "MINUS"
  | mul => some "TIMES"
  | quo => some "DIVIDED_BY"
  | equal => some "EQUAL_TO"
  | notEqual => some "NOT_EQUAL_TO"
  | greater => some "GREATER_THAN"
  | greaterEqual => some "GREATER_THAN_OR_EQUAL_TO"
  | less => some "LESS_THAN"
  | lessEqual => some "LESS_THAN_OR_EQUAL_TO"
  | logicalAnd => some "CONDITIONAL_AND"
  | logicalOr => some "CONDITIONAL_OR"
  | and => some "BITWISE_AND"
  | or => some "BITWISE_OR"
  | xor => some "BITWISE_XOR"
  | shl => some "BITWISE_SHL"
  | shr => some "BITWISE_SHR"
  | andNot => some "BITWISE_AND_NOT"
  | _ => none

/-- The name of an assignment to places that exist. -/
def assignName? : Lexeme → Option String
  | assign => some "EQUAL"
  | addAssign => some "PLUS_EQUAL"
  | subAssign => some "SUB_ASSIGN"
  | mulAssign => some "TIMES_ASSIGN"
  | quoAssign => some "DIVIDED_BY_ASSIGN"
  | remAssign => some "MODULO_ASSIGN"
  | andAssign => some "BITWISE_AND_ASSIGN"
  | orAssign => some "BITWISE_OR_ASSIGN"
  | xorAssign => some "BITWISE_XOR_ASSIGN"
  | shlAssign => some "BITWISE_SHL_ASSIGN"
  | shrAssign => some "BITWISE_SHR_ASSIGN"
  | andNotAssign => some "BITWISE_AND_NOT_ASSIGN"
  | _ => none

/-- The name of a jump out of a loop or to its next round. -/
def jumpName? : Lexeme → Option String
  | breakWord => some "BREAK"
  | continueWord => some "CONTINUE"
  | _ => none

end LosslessGo.Go.Lexeme
