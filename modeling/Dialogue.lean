import Dialogue.Graph.Document
import Dialogue.Graph.InPlace
import Dialogue.Graph.Search
import Dialogue.Lint.Pass
import Dialogue.Main
import Dialogue.Proofs.Command.Flags
import Dialogue.Proofs.Command.Output
import Dialogue.Proofs.Command.Selections
import Dialogue.Proofs.Graph.Detours
import Dialogue.Proofs.Graph.Draft
import Dialogue.Proofs.Graph.Expansion
import Dialogue.Proofs.Graph.InPlace
import Dialogue.Proofs.Graph.Overtaking
import Dialogue.Proofs.Graph.Preorder
import Dialogue.Proofs.Graph.Reachability
import Dialogue.Proofs.Graph.Splicing
import Dialogue.Proofs.Json.Documents
import Dialogue.Proofs.Json.Members
import Dialogue.Proofs.Json.Tokens
import Dialogue.Proofs.Json.Writing
import Dialogue.Proofs.Lint.Filtering
import Dialogue.Proofs.Lint.Findings
import Dialogue.Proofs.Lint.Redefinitions
import Dialogue.Proofs.Lint.Thresholds
import Dialogue.Proofs.Lint.Unpresented
import Dialogue.Proofs.Lint.Unreachable
import Dialogue.Proofs.Play.Answers
import Dialogue.Proofs.Play.Calls
import Dialogue.Proofs.Play.Causality
import Dialogue.Proofs.Play.Correctness
import Dialogue.Proofs.Play.Declared
import Dialogue.Proofs.Play.Effects
import Dialogue.Proofs.Play.Independence
import Dialogue.Proofs.Play.Invariant
import Dialogue.Proofs.Play.Lookup
import Dialogue.Proofs.Play.Operations
import Dialogue.Proofs.Play.Performance
import Dialogue.Proofs.Play.Progress
import Dialogue.Proofs.Play.Resolution
import Dialogue.Proofs.Play.Runs
import Dialogue.Proofs.Play.Sessions
import Dialogue.Proofs.Play.Simulation
import Dialogue.Proofs.Play.Trails
import Dialogue.Proofs.Script.Agreement
import Dialogue.Proofs.Script.Assembly
import Dialogue.Proofs.Script.Classification
import Dialogue.Proofs.Script.Confinement
import Dialogue.Proofs.Script.Containment
import Dialogue.Proofs.Script.Decoding
import Dialogue.Proofs.Script.Drafting
import Dialogue.Proofs.Script.Enclosure
import Dialogue.Proofs.Script.Epilogue
import Dialogue.Proofs.Script.Extents
import Dialogue.Proofs.Script.Faults
import Dialogue.Proofs.Script.Fidelity
import Dialogue.Proofs.Script.Footprint
import Dialogue.Proofs.Script.Guards
import Dialogue.Proofs.Script.Labels
import Dialogue.Proofs.Script.LineFeeds
import Dialogue.Proofs.Script.Liveness
import Dialogue.Proofs.Script.LooseEnds
import Dialogue.Proofs.Script.Moments
import Dialogue.Proofs.Script.Nesting
import Dialogue.Proofs.Script.Outlines
import Dialogue.Proofs.Script.Parsing
import Dialogue.Proofs.Script.Passage
import Dialogue.Proofs.Script.Relabelling
import Dialogue.Proofs.Script.Renumbering
import Dialogue.Proofs.Script.Replay
import Dialogue.Proofs.Script.Scanning
import Dialogue.Proofs.Script.Shape
import Dialogue.Proofs.Script.SourceOrder
import Dialogue.Proofs.Script.Sources
import Dialogue.Proofs.Script.Spelling
import Dialogue.Proofs.Script.Statements
import Dialogue.Proofs.Script.Tagging
import Dialogue.Proofs.Script.Wording
import Dialogue.Proofs.Script.Writing
import Dialogue.Proofs.Text.Numerals
import Dialogue.Script.Assembly
