import LosslessGo.Batch.Convert
import LosslessGo.Batch.Frame
import LosslessGo.Config.Layers
import LosslessGo.Config.Sections
import LosslessGo.Convert
import LosslessGo.Go.Children
import LosslessGo.Go.Schema
import LosslessGo.Tree.Walk
import LosslessGo.Proofs.Draft.Yields
import LosslessGo.Proofs.Convert.Coverage
import LosslessGo.Proofs.Convert.Order
import LosslessGo.Proofs.Flow.Clauses
import LosslessGo.Proofs.Flow.Follows
import LosslessGo.Proofs.Flow.Locate
import LosslessGo.Proofs.Flow.Simulation
import LosslessGo.Proofs.Convert.Names
import LosslessGo.Proofs.Convert.Outcome
import LosslessGo.Proofs.Convert.Graphs
import LosslessGo.Proofs.Convert.Ownership
import LosslessGo.Proofs.Convert.References
import LosslessGo.Proofs.Convert.Tokens
import LosslessGo.Proofs.Convert.Document
import LosslessGo.Proofs.Convert.Comments
import LosslessGo.Proofs.Go.Functions
import LosslessGo.Proofs.Batch.Frame
import LosslessGo.Proofs.Batch.Truncation
import LosslessGo.Proofs.Draft.Operations
import LosslessGo.Proofs.Batch.Convert
import LosslessGo.Proofs.Draft.Expected
import LosslessGo.Proofs.Draft.Stripped
import LosslessGo.Proofs.Draft.Cursor
import LosslessGo.Proofs.Flow.Condition
import LosslessGo.Proofs.Flow.Ended
import LosslessGo.Proofs.Text.Positions
import LosslessGo.Proofs.Symbol.Declarations
import LosslessGo.Proofs.Plan.Blocks
import LosslessGo.Proofs.Convert.Parameters
import LosslessGo.Proofs.Json.Literals
import LosslessGo.Proofs.Document.Comments
import LosslessGo.Proofs.Tree.Preorder
import LosslessGo.Proofs.Config.Layers
import LosslessGo.Proofs.Config.RoundTrip
