import ModalCalls.Diagram.Ite
import ModalCalls.Diagram.Dot
import ModalCalls.Diagram.Handle
import ModalCalls.Diagram.Serial
import ModalCalls.Diagram.Store
import ModalCalls.Diagram.Walk
import ModalCalls.Equation.Basic
import ModalCalls.Equation.Numbering
import ModalCalls.Fault
import ModalCalls.Formula.Basic
import ModalCalls.Formula.Normal
import ModalCalls.Journal
import ModalCalls.Process.Graph
import ModalCalls.Process.Program
import ModalCalls.Proofs.Computation
import ModalCalls.Proofs.Diagram.Canonical
import ModalCalls.Proofs.Diagram.Growth
import ModalCalls.Proofs.Diagram.IfThenElse
import ModalCalls.Proofs.Diagram.Issued
import ModalCalls.Proofs.Diagram.Meaning
import ModalCalls.Proofs.Diagram.Operations
import ModalCalls.Proofs.Diagram.Overflow
import ModalCalls.Proofs.Diagram.Reading
import ModalCalls.Proofs.Diagram.RoundTrip
import ModalCalls.Proofs.Diagram.SerialForm
import ModalCalls.Proofs.Diagram.Substitution
import ModalCalls.Proofs.Diagram.Twin
import ModalCalls.Proofs.Diagram.Writable
import ModalCalls.Proofs.Dot.Labels
import ModalCalls.Proofs.Equation.Acceptance
import ModalCalls.Proofs.Equation.Deadlock
import ModalCalls.Proofs.Equation.Numbered
import ModalCalls.Proofs.Equation.Placed
import ModalCalls.Proofs.Equation.Reaching
import ModalCalls.Proofs.Equation.Summary
import ModalCalls.Proofs.Equation.Transcription
import ModalCalls.Proofs.Equation.WellFormed
import ModalCalls.Proofs.Formula.Occurrence
import ModalCalls.Proofs.Formula.Polarity
import ModalCalls.Proofs.Formula.Shape
import ModalCalls.Proofs.Iteration.Assignment
import ModalCalls.Proofs.Iteration.Extremal
import ModalCalls.Proofs.Iteration.Rising
import ModalCalls.Proofs.Iteration.Snapshot
import ModalCalls.Proofs.Lockstep
import ModalCalls.Proofs.Process.Listing
import ModalCalls.Proofs.Process.Validation
import ModalCalls.Proofs.Process.WellFormed
import ModalCalls.Proofs.Semantics.Blocks
import ModalCalls.Proofs.Semantics.Configuration
import ModalCalls.Proofs.Semantics.Deadlocked
import ModalCalls.Proofs.Semantics.Denotation
import ModalCalls.Proofs.Semantics.Edges
import ModalCalls.Proofs.Semantics.Expansion
import ModalCalls.Proofs.Semantics.Grounded
import ModalCalls.Proofs.Semantics.Leaves
import ModalCalls.Proofs.Semantics.Negation
import ModalCalls.Proofs.Semantics.Nesting
import ModalCalls.Proofs.Semantics.Paths
import ModalCalls.Proofs.Semantics.Summaries
import ModalCalls.Proofs.Semantics.Trails
import ModalCalls.Proofs.Semantics.Unfolding
import ModalCalls.Proofs.Session.Begin
import ModalCalls.Proofs.Session.Bookkeeping
import ModalCalls.Proofs.Session.Budget
import ModalCalls.Proofs.Session.Candidate
import ModalCalls.Proofs.Session.Chronicle
import ModalCalls.Proofs.Session.Confluence
import ModalCalls.Proofs.Session.Converged
import ModalCalls.Proofs.Session.ExcludedMiddle
import ModalCalls.Proofs.Session.Intact
import ModalCalls.Proofs.Session.Legible
import ModalCalls.Proofs.Session.Marking
import ModalCalls.Proofs.Session.Overflow
import ModalCalls.Proofs.Session.Regular
import ModalCalls.Proofs.Session.Replay
import ModalCalls.Proofs.Session.Resized
import ModalCalls.Proofs.Session.Run
import ModalCalls.Proofs.Session.Stability
import ModalCalls.Proofs.Session.Termination
import ModalCalls.Proofs.Session.Transition
import ModalCalls.Proofs.Session.Verdict
import ModalCalls.Proofs.Storage.Cache
import ModalCalls.Proofs.Storage.Pairing
import ModalCalls.Proofs.Storage.Table
import ModalCalls.Proofs.Text.Written
import ModalCalls.Proofs.Transformer.Composition
import ModalCalls.Proofs.Transformer.Extensional
import ModalCalls.Proofs.Transformer.History
import ModalCalls.Proofs.Transformer.Meaning
import ModalCalls.Proofs.Transformer.Monotone
import ModalCalls.Proofs.Transcript
import ModalCalls.Proofs.VarSet
import ModalCalls.Proofs.Witness.Complete
import ModalCalls.Proofs.Witness.Moves
import ModalCalls.Proofs.Witness.Path
import ModalCalls.Proofs.Witness.Search
import ModalCalls.Proofs.Witness.Shortest
import ModalCalls.Proofs.Witness.Tree
import ModalCalls.Proofs.WorkSet
import ModalCalls.Session.Step
import ModalCalls.Session.Basic
import ModalCalls.Session.History
import ModalCalls.Solve
import ModalCalls.Storage.Cache
import ModalCalls.Storage.Pairing
import ModalCalls.Storage.Table
import ModalCalls.Transformer.Basic
import ModalCalls.Transformer.Pool
import ModalCalls.VarSet
import ModalCalls.Witness.Search
import ModalCalls.Witness.Tree
import ModalCalls.WorkSet
