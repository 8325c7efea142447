import PageSync.NodeId
import PageSync.Attributes
import PageSync.Node
import PageSync.Operation
import PageSync.View
import PageSync.Forest.Basic
import PageSync.Forest.Edit
import PageSync.Forest.Load
import PageSync.Decimal
import PageSync.Policy
import PageSync.Ledger
import PageSync.Pass.Error
import PageSync.Pass.Basic
import PageSync.Pass.Eviction
import PageSync.Pass.Children
import PageSync.Pass.Walk
import PageSync.Pass.Emission
import PageSync.Differ
import PageSync.Sink
import PageSync.Xml.Text
import PageSync.Xml.Stream
import PageSync.Session
import PageSync.Json.Basic
import PageSync.Json.Reader
import PageSync.Json.Schema
import PageSync.Proofs.Ancestry
import PageSync.Proofs.Subtrees
import PageSync.Proofs.Client
import PageSync.Proofs.Region
import PageSync.Proofs.Views
import PageSync.Proofs.Shown
import PageSync.Proofs.Evictions
import PageSync.Proofs.Shares
import PageSync.Proofs.Carrying
import PageSync.Proofs.Steps
import PageSync.Proofs.Relocations
import PageSync.Proofs.Ensuring
import PageSync.Proofs.Readings
import PageSync.Proofs.Frames
import PageSync.Proofs.Comparing
import PageSync.Proofs.Aligning
import PageSync.Proofs.Walking
import PageSync.Proofs.Passes
import PageSync.Proofs.Finishing
import PageSync.Proofs.Records
import PageSync.Proofs.Moves
import PageSync.Proofs.Edits
import PageSync.Proofs.Contradictions
import PageSync.Proofs.Grafts
import PageSync.Proofs.Settling
import PageSync.Proofs.Loading
import PageSync.Proofs.Runs
import PageSync.Proofs.Arena
import PageSync.Proofs.Cleaning
import PageSync.Proofs.Histories
import PageSync.Proofs.Jams
import PageSync.Proofs.Chains
import PageSync.Proofs.Failures
import PageSync.Proofs.Strays
import PageSync.Proofs.Agreement
import PageSync.Proofs.Likeness
import PageSync.Proofs.Bystanders
import PageSync.Proofs.Reaching
import PageSync.Proofs.Standing
import PageSync.Proofs.Faults
import PageSync.Proofs.Escapes
import PageSync.Proofs.Elements
import PageSync.Proofs.Commands
import PageSync.Proofs.StartTags
import PageSync.Proofs.Coherence
import PageSync.Proofs.Departures
import PageSync.Proofs.Economy
import PageSync.Proofs.Scripts
import PageSync.Proofs.Visits
import PageSync.Proofs.Ratios
import PageSync.Proofs.Cancelling
import PageSync.Proofs.Lossless
import PageSync.Proofs.Insertions
import PageSync.Proofs.Redressing
import PageSync.Proofs.Rotations
import PageSync.Proofs.Renumbering
import PageSync.Proofs.Traces
import PageSync.Proofs.Pieces
import PageSync.Proofs.Truncations
import PageSync.Proofs.Locating
import PageSync.Proofs.Nesting
import PageSync.Proofs.Outlines
import PageSync.Proofs.Retaining
import PageSync.Proofs.Opening
import PageSync.Proofs.Values
