import TreeConversion.Text.Bytes
import TreeConversion.Text.Blank
import TreeConversion.Text.Escaped
import TreeConversion.Text.Quoted
import TreeConversion.Text.Search
import TreeConversion.Position.Basic
import TreeConversion.Position.LineTable
import TreeConversion.Position.Json
import TreeConversion.Json.Number
import TreeConversion.Json.Value
import TreeConversion.Json.Token
import TreeConversion.Json.Document
import TreeConversion.Json.Schema
import TreeConversion.Source.Basic
import TreeConversion.Source.Json
import TreeConversion.Source.Tree
import TreeConversion.Source.Builder
import TreeConversion.Source.Outline
import TreeConversion.Target.Basic
import TreeConversion.Target.Walk
import TreeConversion.Target.Compact
import TreeConversion.Target.Json
import TreeConversion.Conversion.Settings
import TreeConversion.Conversion.Failure
import TreeConversion.Conversion.Origins
import TreeConversion.Conversion.Event
import TreeConversion.Conversion.Action
import TreeConversion.Conversion.Rulebook
import TreeConversion.Conversion.Workspace
import TreeConversion.Conversion.Engine
import TreeConversion.Conversion.Finish
import TreeConversion.Conversion.Converter
import TreeConversion.Script.Basic
import TreeConversion.Script.Rule
import TreeConversion.Script.Tokens
import TreeConversion.LogSetup
import TreeConversion.Proofs.Numbering
import TreeConversion.Proofs.Origins
import TreeConversion.Proofs.Course
import TreeConversion.Proofs.Emissions
import TreeConversion.Proofs.Rollback
import TreeConversion.Proofs.Compact
import TreeConversion.Proofs.Finish
import TreeConversion.Proofs.Harvest
import TreeConversion.Proofs.Provenance
import TreeConversion.Proofs.Placeholders
import TreeConversion.Proofs.Render
import TreeConversion.Proofs.Ownership
import TreeConversion.Proofs.Endings
import TreeConversion.Proofs.Projection
import TreeConversion.Proofs.Verdict
import TreeConversion.Proofs.FirstFailure
import TreeConversion.Proofs.Forest
import TreeConversion.Proofs.Preorder
import TreeConversion.Proofs.Structural
import TreeConversion.Proofs.OrderKept
import TreeConversion.Proofs.Attachment
import TreeConversion.Proofs.Loading
import TreeConversion.Proofs.Positions
import TreeConversion.Proofs.Sieve
import TreeConversion.Proofs.Padding
import TreeConversion.Proofs.Unattached
import TreeConversion.Proofs.Lasting
import TreeConversion.Proofs.Warnings
import TreeConversion.Proofs.Pruning
import TreeConversion.Proofs.Records
import TreeConversion.Proofs.RoundTrip
import TreeConversion.Proofs.Nesting
import TreeConversion.Proofs.Lines
import TreeConversion.Proofs.PlaceOrder
import TreeConversion.Proofs.Acyclic
import TreeConversion.Proofs.Traversal
import TreeConversion.Proofs.Renumbered
import TreeConversion.Proofs.Passes
import TreeConversion.Proofs.Written
import TreeConversion.Proofs.Descendants
import TreeConversion.Proofs.Survivors
import TreeConversion.Proofs.Accepted
