/-!
# Control-flow graphs

The graph of a function body, in numbers: each block lists the nodes evaluated in it and the
blocks that may follow. Block 0 is the entry.
-/

namespace LosslessGo.Flow

/-- A basic block: the ids of its nodes in order of evaluation, and the numbers of the blocks that
may follow it. -/
structure GraphBlock where
  ids : List Int
  successors : List Int
  deriving DecidableEq, Inhabited, Repr

/-- The blocks of a function body, entry first. -/
structure Graph where
  blocks : List GraphBlock
  deriving DecidableEq, Inhabited, Repr

/-- `[1,2]`, and `null` for the empty list. -/
def numbersText : List Int → String
  | [] => "null"
  | ns => "[" ++ ",".intercalate (ns.map toString) ++ "]"

/-- A block as a JSON object. -/
def GraphBlock.text (b : GraphBlock) : String :=
  "\x7b\"Node\":" ++ numbersText b.ids ++ ",\"Successors\":" ++ numbersText b.successors ++ "\x7d"

/-- A graph as a JSON object. -/
def Graph.text (g : Graph) : String :=
  "\x7b\"Blocks\":[" ++ ",".intercalate (g.blocks.map (·.text)) ++ "]\x7d"

end LosslessGo.Flow
