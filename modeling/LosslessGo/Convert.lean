import LosslessGo.Plan.Build
import LosslessGo.Plan.OfSyntax

/-!
# Converting a file

A parsed file and its source text become one tree that accounts for all of the text.

* `convertFile` gives the tree with its comments and tokens, or says where the syntax tree and the
  text disagree.
-/

namespace LosslessGo

/-- How files are converted. -/
structure ConvertOptions where
  /-- Whether disagreements with the source text are errors. -/
  strict : Bool
  /-- Whether identifiers are described. -/
  describe : Bool
  deriving DecidableEq, Inhabited, Repr

/-- A converted file: its tree, the comments in source order and the tokens by offset. -/
structure Converted where
  tree : Tree
  root : Option NodeId
  comments : List NodeId
  tokens : List NodeId
  deriving Inhabited, Repr

/-- The facts about the names of a file that conversion uses. -/
def factsOf (file : Go.File) (source : String) (symbols : SymbolTable) (options : ConvertOptions) :
    Facts :=
  .ofSymbols symbols (.ofFile file) source options.describe

/-- The root may not reach past the source. -/
def checkRoot (set : Setting) (root : Option NodeId) : Build Unit := fun d =>
  match root with
  | none => .ok () d
  | some i =>
    let n := d.tree.node i
    if set.size < n.stop ∧ set.strict then
      .error (.unexpectedRoot (set.location n.offset n.stop)) d
    else .ok () d

/-- Makes the leaves of the comments, and then the tree. -/
def buildFile (set : Setting) (facts : Facts) (file : Go.File) : Build (Option NodeId) := do
  Build.comments set file.comments.flatten
  let root ← (Plan.ofFile facts file).build set ""
  checkRoot set root
  return root

/-- The tree of a file. -/
def convertFile (file : Go.File) (source : SourceFile) (symbols : SymbolTable)
    (options : ConvertOptions) : Except ConvertError Converted :=
  match buildFile ⟨source, options.strict⟩ (factsOf file source.text symbols options) file .empty with
  | .ok root d => .ok ⟨d.tree, root, d.comments.toList, d.tokensByOffset⟩
  | .error e _ => .error e

end LosslessGo
