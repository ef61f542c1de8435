import GraphPattern.CommandLine.FileTree
import GraphPattern.Description.Writer
import GraphPattern.Main
import GraphPattern.Proofs.Plan
import GraphPattern.Query.Component
import GraphPattern.Query.Text
import GraphPattern.Proofs.Execution.Chain
import GraphPattern.Proofs.Execution.Names
import GraphPattern.Proofs.Plan.Exact
import GraphPattern.Proofs.Execution.Answer
import GraphPattern.Proofs.Execution.Completed
import GraphPattern.Proofs.Execution.Paths
import GraphPattern.Proofs.Execution.Survivors
import GraphPattern.Proofs.Plan.Plain
import GraphPattern.Proofs.Execution.Recall
import GraphPattern.Proofs.Rule.Lineal
import GraphPattern.Proofs.Matches.Fitting
import GraphPattern.Proofs.Matches.Gather
import GraphPattern.Proofs.Matches.Pairs
import GraphPattern.Proofs.Matches.Vertex
import GraphPattern.Proofs.Execution.Progress
import GraphPattern.Proofs.Execution.Tour
import GraphPattern.Proofs.Search.Sharing
import GraphPattern.Proofs.Plan.Sound
import GraphPattern.Proofs.Plan.Outcome
import GraphPattern.Proofs.Plan.Conserved
import GraphPattern.Proofs.Plan.Supported
import GraphPattern.Proofs.Query.Content
import GraphPattern.Proofs.Validation.Walk
import GraphPattern.Proofs.Validation.Prune
import GraphPattern.Proofs.Validation.Boundary
import GraphPattern.Proofs.Validation.Exact
import GraphPattern.Proofs.Custody.Closing
import GraphPattern.Proofs.Custody.Release
import GraphPattern.Proofs.Execution.Failure
import GraphPattern.Proofs.Atomic
import GraphPattern.Proofs.Store.Calls
import GraphPattern.Proofs.Description.Reading
import GraphPattern.Proofs.Query.Refusal
import GraphPattern.Proofs.Store.Shape
import GraphPattern.Proofs.Description.Readback
import GraphPattern.Proofs.Query.Absorption
import GraphPattern.Proofs.Plan.Settlement
import GraphPattern.Proofs.Matches.Collapse
import GraphPattern.Proofs.Search.Shortest
import GraphPattern.Proofs.Matches.Constraint
import GraphPattern.Proofs.Execution.Derived
import GraphPattern.Proofs.Query.Cached
import GraphPattern.Proofs.Walk
import GraphPattern.Proofs.Matches.Absorb
import GraphPattern.Proofs.Description.Writer
import GraphPattern.Proofs.Store.Joins
import GraphPattern.Proofs.Store.Groups
import GraphPattern.Proofs.Custody.Registry
