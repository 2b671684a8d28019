import LosslessGo.Convert
import LosslessGo.Document.Node

/-!
# The document of a file

The document of a file lists its comments and tokens, then its tree, then an error message.

* `Converted.document`: the document of a converted file.
* `failureDocument`: the document of a file without a tree.
-/

namespace LosslessGo

open Json (quote)

/-- Items on lines of their own between the lines of a bracket. -/
def itemLines (items : List String) : String :=
  if items.isEmpty then "" else ",\n".intercalate items ++ "\n"

/-- The lists of comments and tokens, from their items. -/
def metadataText (indent : String) (comments tokens : List String) : String :=
  let inner := indent ++ indent
  indent ++ "\"treeMetaData\": \x7b\n" ++
    inner ++ "\"comments\": [\n" ++ itemLines comments ++ inner ++ "],\n" ++
    inner ++ "\"tokens\": [\n" ++ itemLines tokens ++ inner ++ "]\n" ++
    indent ++ "\x7d,\n"

/-- An optional message. -/
def messageText (message : Option String) : String := (message.map quote).getD nullText

/-- A document from its parts. -/
def documentText (indent metadata tree : String) (message : Option String) : String :=
  "\x7b \n" ++ metadata ++ indent ++ "\"tree\":\n" ++ tree ++ indent ++ ",\n" ++
    indent ++ "\"error\": " ++ messageText message ++ "\n\x7d \n"

/-- The document of a converted file. -/
def Converted.document (c : Converted) (indent : String) (message : Option String) :
    Except Fault String := do
  let lead := indent ++ indent ++ indent
  let comments ← c.comments.mapM fun i => commentText (c.tree.node i)
  let tokens := c.tokens.map fun i => tokenText lead (c.tree.node i)
  let deeper := indent ++ indent
  let tree := match c.root with
    | some i => nodeText c.tree indent deeper i
    | none => deeper ++ nullText
  return documentText indent (metadataText indent (comments.map (lead ++ ·)) tokens) tree message

/-- The document of a file without a tree. -/
def failureDocument (indent message : String) : String :=
  documentText indent (metadataText indent [] []) (indent ++ indent ++ nullText) (some message)

end LosslessGo
