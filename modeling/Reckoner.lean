import Reckoner.Decimal.Approximate
import Reckoner.Decimal.Binary64
import Reckoner.Decimal.Exact
import Reckoner.Journal.Entry
import Reckoner.Journal.Template
import Reckoner.Journal.Timestamp
import Reckoner.Proofs.Buffer.Editing
import Reckoner.Proofs.Buffer.Isomorphism
import Reckoner.Proofs.Buffer.Nested
import Reckoner.Proofs.Buffer.Soundness
import Reckoner.Proofs.Codec.Bytes
import Reckoner.Proofs.Codec.Canonical
import Reckoner.Proofs.Codec.Merging
import Reckoner.Proofs.Codec.Outline
import Reckoner.Proofs.Codec.Preservation
import Reckoner.Proofs.Codec.Rebuilding
import Reckoner.Proofs.Codec.Sharing
import Reckoner.Proofs.Codec.Shelving
import Reckoner.Proofs.Evaluation.Agreement
import Reckoner.Proofs.Outcome
import Reckoner.Proofs.Session.Coherence
import Reckoner.Proofs.Session.Command
import Reckoner.Proofs.Session.Custody
import Reckoner.Proofs.Session.Desk
import Reckoner.Proofs.Session.Ledger
import Reckoner.Proofs.Session.Persistence
import Reckoner.Report
import Reckoner.Session
import Reckoner.Settings
import Reckoner.Workspace
import Reckoner.Proofs.Literal
import Reckoner.Proofs.Evaluation.Shape
import Reckoner.Proofs.Codec.Failure
import Reckoner.Proofs.Session.Recomputation
import Reckoner.Proofs.Session.Labels
import Reckoner.Proofs.Evaluation.Abbreviation
import Reckoner.Proofs.Evaluation.AutoClosing
import Reckoner.Proofs.Evaluation.Closing
import Reckoner.Proofs.Evaluation.Juxtaposition
import Reckoner.Proofs.Evaluation.Lockstep
import Reckoner.Proofs.Evaluation.Stopping
import Reckoner.Proofs.Evaluation.Substitution
import Reckoner.Proofs.Session.Continuation
import Reckoner.Proofs.Decimal
import Reckoner.Proofs.Typing
import Reckoner.Proofs.Reporting
import Reckoner.Proofs.Codec.Curtailment
import Reckoner.Proofs.Codec.Spelling
import Reckoner.Proofs.Codec.Placement
import Reckoner.Proofs.Codec.Economy
import Reckoner.Proofs.Codec.Limit
import Reckoner.Proofs.Codec.Acceptance
import Reckoner.Proofs.Quantity.Denotation
import Reckoner.Proofs.Session.Memory
import Reckoner.Proofs.Buffer.Operation
import Reckoner.Proofs.Buffer.LeftOperand
import Reckoner.Proofs.Workspace.Operation
import Reckoner.Proofs.Workspace.Separation
import Reckoner.Proofs.Session.Separation
import Reckoner.Proofs.Workspace.Sharing
import Reckoner.Proofs.Workspace.Ownership
import Reckoner.Proofs.Workspace.Upkeep
import Reckoner.Proofs.Session.Angles
import Reckoner.Proofs.Evaluation.Positions
import Reckoner.Proofs.Evaluation.Exactness
import Reckoner.Proofs.Evaluation.Percentages
import Reckoner.Proofs.Quantity.Rational
import Reckoner.Proofs.Buffer.Undoing
import Reckoner.Proofs.Typing.Layout
import Reckoner.Proofs.Numeral
import Reckoner.Proofs.Decimal.Canonical
import Reckoner.Proofs.Session.Failure
import Reckoner.Proofs.Workspace.Joining
import Reckoner.Proofs.Buffer.OperatorRuns
import Reckoner.Codec.Stream
import Reckoner.Proofs.Buffer.Interest
import Reckoner.Proofs.Codec.Stream
import Reckoner.Proofs.Text.Grouping
import Reckoner.Proofs.Decimal.Approximation
