import CodeGraph.Change.Basic
import CodeGraph.Change.Set
import CodeGraph.Command.Line
import CodeGraph.Command.Question
import CodeGraph.Command.Run
import CodeGraph.Command.Words
import CodeGraph.Config
import CodeGraph.Declaration
import CodeGraph.Digest
import CodeGraph.Disk
import CodeGraph.Environment
import CodeGraph.Error
import CodeGraph.Graph.Index
import CodeGraph.Graph.References
import CodeGraph.Graph.Store
import CodeGraph.Graph.Symbols
import CodeGraph.Ignore.Glob
import CodeGraph.Ignore.Pattern
import CodeGraph.Ignore.Rules
import CodeGraph.Json.Basic
import CodeGraph.Json.Declaration
import CodeGraph.Json.Decode
import CodeGraph.Json.Parser
import CodeGraph.Kind
import CodeGraph.Main
import CodeGraph.Path
import CodeGraph.ProjectRoot
import CodeGraph.Proofs.ChangeSet
import CodeGraph.Proofs.Disk
import CodeGraph.Proofs.Flushing
import CodeGraph.Proofs.Index
import CodeGraph.Proofs.Json.Declaration
import CodeGraph.Proofs.Json.RoundTrip
import CodeGraph.Proofs.Json.Text
import CodeGraph.Proofs.Keys
import CodeGraph.Proofs.Location
import CodeGraph.Proofs.Lowercase
import CodeGraph.Proofs.Path
import CodeGraph.Proofs.Query.Ascent
import CodeGraph.Proofs.Query.Assembly
import CodeGraph.Proofs.Query.CallLimits
import CodeGraph.Proofs.Query.Calls
import CodeGraph.Proofs.Query.Children
import CodeGraph.Proofs.Query.Containment
import CodeGraph.Proofs.Query.Converse
import CodeGraph.Proofs.Query.Dependencies
import CodeGraph.Proofs.Query.Detours
import CodeGraph.Proofs.Query.FileOutline
import CodeGraph.Proofs.Query.Forest
import CodeGraph.Proofs.Query.FullTree
import CodeGraph.Proofs.Query.Hierarchy
import CodeGraph.Proofs.Query.IgnoringCase
import CodeGraph.Proofs.Query.Layers
import CodeGraph.Proofs.Query.Lineage
import CodeGraph.Proofs.Query.Neighbours
import CodeGraph.Proofs.Query.Provenance
import CodeGraph.Proofs.Query.Roots
import CodeGraph.Proofs.Query.Search
import CodeGraph.Proofs.Query.Sorting
import CodeGraph.Proofs.Query.Tree
import CodeGraph.Proofs.Query.TreeWalk
import CodeGraph.Proofs.ReferencePairs
import CodeGraph.Proofs.References
import CodeGraph.Proofs.Repository
import CodeGraph.Proofs.Settle
import CodeGraph.Proofs.SettledOrder
import CodeGraph.Proofs.Slots
import CodeGraph.Proofs.Store.Coherent
import CodeGraph.Proofs.Store.Copy
import CodeGraph.Proofs.Store.FileRemoval
import CodeGraph.Proofs.Store.Removal
import CodeGraph.Proofs.Store.Scan
import CodeGraph.Proofs.Symbols
import CodeGraph.Proofs.Update.Account
import CodeGraph.Proofs.Update.Balance
import CodeGraph.Proofs.Update.Cascade
import CodeGraph.Proofs.Update.Closed
import CodeGraph.Proofs.Update.Coverage
import CodeGraph.Proofs.Update.Durable
import CodeGraph.Proofs.Update.Edit
import CodeGraph.Proofs.Update.Edited
import CodeGraph.Proofs.Update.Effect
import CodeGraph.Proofs.Update.Ending
import CodeGraph.Proofs.Update.File
import CodeGraph.Proofs.Update.Incremental
import CodeGraph.Proofs.Update.Mirror
import CodeGraph.Proofs.Update.Moment
import CodeGraph.Proofs.Update.Reader
import CodeGraph.Proofs.Update.Relocation
import CodeGraph.Proofs.Update.Renewal
import CodeGraph.Proofs.Update.Repeat
import CodeGraph.Proofs.Update.Replacement
import CodeGraph.Proofs.Update.Return
import CodeGraph.Proofs.Update.Stale
import CodeGraph.Proofs.Update.Turn
import CodeGraph.Proofs.Update.Visit
import CodeGraph.Proofs.Watch.Deadline
import CodeGraph.Proofs.Watch.Delivery
import CodeGraph.Proofs.Watch.Intake
import CodeGraph.Proofs.Watch.Redelivery
import CodeGraph.Proofs.Watch.Requeue
import CodeGraph.Query.Direction
import CodeGraph.Query.Lookup
import CodeGraph.Query.Match
import CodeGraph.Query.Order
import CodeGraph.Query.Outline
import CodeGraph.Query.Page
import CodeGraph.Query.Walk
import CodeGraph.Repository
import CodeGraph.Text.AlphanumericTable
import CodeGraph.Text.Blank
import CodeGraph.Text.CaseTable
import CodeGraph.Text.Lowercase
import CodeGraph.Toml.Basic
import CodeGraph.Toml.Parser
import CodeGraph.Toml.Scalar
import CodeGraph.Update.Analysis
import CodeGraph.Update.Batch
import CodeGraph.Update.Project
import CodeGraph.Update.Summary
import CodeGraph.Watch.Debouncer
import CodeGraph.Watch.Feed
import CodeGraph.Watch.Filter
import CodeGraph.Watch.Session
