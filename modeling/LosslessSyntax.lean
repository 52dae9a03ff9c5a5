import LosslessSyntax.Builder
import LosslessSyntax.Diagnostic
import LosslessSyntax.Diagnostic.Resolved
import LosslessSyntax.Diagnostic.Snippet
import LosslessSyntax.Fact
import LosslessSyntax.Fact.Content
import LosslessSyntax.Fact.Make
import LosslessSyntax.Fact.Measure
import LosslessSyntax.Fact.Report
import LosslessSyntax.Fact.Terminals
import LosslessSyntax.Fact.Text
import LosslessSyntax.Fact.Trivia
import LosslessSyntax.Fact.Width
import LosslessSyntax.Fault
import LosslessSyntax.Flags
import LosslessSyntax.Kind
import LosslessSyntax.KindSet
import LosslessSyntax.NodeOrToken
import LosslessSyntax.Parse.Checkpoint
import LosslessSyntax.Parse.Context
import LosslessSyntax.Parse.Parser
import LosslessSyntax.Parse.Script
import LosslessSyntax.Parse.TokenBuffer
import LosslessSyntax.Proofs.Builder.OpenNodes
import LosslessSyntax.Proofs.Builder.Replay
import LosslessSyntax.Proofs.Fact.Constructions
import LosslessSyntax.Proofs.Fact.Contents
import LosslessSyntax.Proofs.Fact.Erase
import LosslessSyntax.Proofs.Fact.Instances
import LosslessSyntax.Proofs.Fact.Leaves
import LosslessSyntax.Proofs.Fact.Made
import LosslessSyntax.Proofs.Fact.NodeEdits
import LosslessSyntax.Proofs.Fact.Obtainable
import LosslessSyntax.Proofs.Fact.Occurrences
import LosslessSyntax.Proofs.Fact.Order
import LosslessSyntax.Proofs.Fact.Positions
import LosslessSyntax.Proofs.Fact.Report
import LosslessSyntax.Proofs.Fact.Summary
import LosslessSyntax.Proofs.Fact.Terminals
import LosslessSyntax.Proofs.Fact.TokenEdits
import LosslessSyntax.Proofs.KindSet
import LosslessSyntax.Proofs.Parse.Acts
import LosslessSyntax.Proofs.Parse.Drivers
import LosslessSyntax.Proofs.Parse.Errors
import LosslessSyntax.Proofs.Parse.Faults
import LosslessSyntax.Proofs.Parse.Findings
import LosslessSyntax.Proofs.Parse.Lossless
import LosslessSyntax.Proofs.Parse.Markers
import LosslessSyntax.Proofs.Parse.Plans
import LosslessSyntax.Proofs.Parse.Recovery
import LosslessSyntax.Proofs.Parse.Renaming
import LosslessSyntax.Proofs.Parse.Rewind
import LosslessSyntax.Proofs.Parse.Runs
import LosslessSyntax.Proofs.Parse.Speculation
import LosslessSyntax.Proofs.Parse.Twins
import LosslessSyntax.Proofs.View.Alike
import LosslessSyntax.Proofs.View.Answers
import LosslessSyntax.Proofs.View.Arena
import LosslessSyntax.Proofs.View.EmptyNodes
import LosslessSyntax.Proofs.View.NodeLookup
import LosslessSyntax.Proofs.View.NodesAround
import LosslessSyntax.Proofs.View.Places
import LosslessSyntax.Proofs.View.Pointers
import LosslessSyntax.Proofs.View.Queries
import LosslessSyntax.Proofs.View.Refinement
import LosslessSyntax.Proofs.View.Reports
import LosslessSyntax.Proofs.View.Spans
import LosslessSyntax.Proofs.View.TokenLookup
import LosslessSyntax.Proofs.View.TokenOrder
import LosslessSyntax.Proofs.View.TokenSearch
import LosslessSyntax.Proofs.View.TokenSteps
import LosslessSyntax.Proofs.View.Traversals
import LosslessSyntax.Proofs.View.WalkOrder
import LosslessSyntax.Proofs.View.Walks
import LosslessSyntax.Range
import LosslessSyntax.Shape
import LosslessSyntax.Size
import LosslessSyntax.Step
import LosslessSyntax.Text.Hidden
import LosslessSyntax.Text.Layout
import LosslessSyntax.Text.Quoted
import LosslessSyntax.View.Delimited
import LosslessSyntax.View.Dump
import LosslessSyntax.View.Lookup
import LosslessSyntax.View.Pointer
import LosslessSyntax.View.Token
import LosslessSyntax.View.Tree
import LosslessSyntax.View.Walk
