import Conduit.Date
import Conduit.Generator.Script
import Conduit.Main
import Conduit.Proofs.Concept.Compatible
import Conduit.Proofs.Library.Signature
import Conduit.Proofs.Run.Landed
import Conduit.Proofs.Run.Merged
import Conduit.Proofs.Run.Operators
import Conduit.Proofs.Run.Output
import Conduit.Proofs.Run.Stub
import Conduit.Proofs.Run.Sufficient
import Conduit.Proofs.Run.Tour
import Conduit.Proofs.Run.Written
import Conduit.Proofs.Library.History
import Conduit.Proofs.Template.Determined
import Conduit.Proofs.Library.BuiltIns
import Conduit.Proofs.Library.Conservative
import Conduit.Proofs.Library.Order
import Conduit.Proofs.Blueprint.Rereads
import Conduit.Proofs.Memory.Calls
import Conduit.Proofs.Blueprint.RoundTrip
import Conduit.Proofs.Library.Lost
import Conduit.Proofs.Run.Finds
import Conduit.Proofs.Concept.Larger
import Conduit.Proofs.Run.Lost
import Conduit.Proofs.Library.Larger
import Conduit.Proofs.Library.Reload
import Conduit.Proofs.Expression.Quoted
import Conduit.Proofs.Expression.WellFormed
import Conduit.Proofs.Template.Bare
import Conduit.Proofs.Structure.Keys
import Conduit.Proofs.Structure.History
import Conduit.Proofs.Structure.Nested
import Conduit.Proofs.Content.RoundTrip
import Conduit.Proofs.Memory.Broadcast
import Conduit.Proofs.Content.Decodes
import Conduit.Proofs.Library.Strict
import Conduit.Proofs.Run.Hidden
import Conduit.Proofs.Memory.Failed
import Conduit.Proofs.Run.Counts
import Conduit.Proofs.Run.StepNames
import Conduit.Proofs.Template.Pieces
import Conduit.Proofs.Structure.Locations
import Conduit.Proofs.Run.Combined
import Conduit.Proofs.Run.Asked
import Conduit.Proofs.Structure.Subtyping
import Conduit.Proofs.Structure.Types
