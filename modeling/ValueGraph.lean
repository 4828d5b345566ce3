import ValueGraph.Compile.Handle
import ValueGraph.Execution.Encoding
import ValueGraph.Execution.Rehearsal
import ValueGraph.Graph.Part
import ValueGraph.Graph.Replace
import ValueGraph.Graph.Trace
import ValueGraph.Resolution.Services
import ValueGraph.Proofs.Graph.Backing
import ValueGraph.Proofs.Graph.Continuity
import ValueGraph.Proofs.Graph.Flags
import ValueGraph.Proofs.Graph.Justification
import ValueGraph.Proofs.Graph.Part
import ValueGraph.Proofs.Graph.PartPruning
import ValueGraph.Proofs.Graph.Replacement
import ValueGraph.Proofs.Graph.Trace
import ValueGraph.Proofs.Graph.Undo
import ValueGraph.Proofs.Graph.Validation
import ValueGraph.Proofs.Graph.View
import ValueGraph.Proofs.Resolution.Growth
import ValueGraph.Proofs.Resolution.Lookup
import ValueGraph.Proofs.Resolution.Offers
import ValueGraph.Proofs.Resolution.Recall
import ValueGraph.Proofs.Resolution.Relabelling
import ValueGraph.Proofs.Resolution.Siblings
import ValueGraph.Proofs.Resolution.SingleFlight
import ValueGraph.Proofs.Resolution.Soundness
import ValueGraph.Proofs.Resolution.Termination
import ValueGraph.Proofs.Compile.Retries
import ValueGraph.Proofs.Compile.SideBySide
import ValueGraph.Proofs.Compile.Summary
import ValueGraph.Proofs.Execution.Accounting
import ValueGraph.Proofs.Execution.Cancellation
import ValueGraph.Proofs.Execution.Consistency
import ValueGraph.Proofs.Execution.Encoding
import ValueGraph.Proofs.Execution.Sharing
import ValueGraph.Proofs.Execution.Sequence
